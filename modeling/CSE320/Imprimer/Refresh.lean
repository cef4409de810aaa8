import CSE320.Imprimer.Vscreen
import CSE320.Lib.Run
import Mathlib.Data.List.GetD

namespace CSE320.Imprimer

open Lib (Byte)

-- What a cell of the physical screen is to show.
def shown (ch : Byte) : Byte := if isprint ch then ch else blank

-- No printable character other than a blank stands behind a cell without one.
def InOrder (row : List Byte) : Prop := row.Pairwise fun a b => isprint a = true ∨ shown b = blank

instance (row : List Byte) : Decidable (InOrder row) :=
  inferInstanceAs (Decidable (row.Pairwise fun a b => isprint a = true ∨ shown b = blank))

section

variable {row : List Byte}

theorem replicate_cons {α : Type} (n : Nat) (a : α) (l : List α) :
    List.replicate n a ++ a :: l = List.replicate (n + 1) a ++ l := by
  rw [List.replicate_succ', List.append_assoc]
  rfl

-- Cells that are moved to the left are all blanks.
theorem shown_of_moved (moved : Nat)
    (h : ∀ c, (row.filter isprint).getD c blank =
      (List.replicate (moved + 1) blank ++ row.map shown).getD c blank) :
    ∀ ch ∈ row, shown ch = blank := by
  induction row generalizing moved with
  | nil => exact fun ch hch => nomatch hch
  | cons first row ih =>
      intro ch hch
      by_cases hprint : isprint first = true
      · rw [List.filter_cons_of_pos hprint] at h
        have hfirst : first = blank := h 0
        have hblank : shown first = blank := by rw [shown, if_pos hprint, hfirst]
        rcases List.mem_cons.mp hch with rfl | hch
        · exact hblank
        · refine ih moved (fun c => ?_) ch hch
          have hnext := h (c + 1)
          rw [List.map_cons, hblank, replicate_cons] at hnext
          exact hnext
      · rw [List.filter_cons_of_neg hprint] at h
        have hblank : shown first = blank := if_neg hprint
        rcases List.mem_cons.mp hch with rfl | hch
        · exact hblank
        · refine ih (moved + 1) (fun c => ?_) ch hch
          rw [h c, List.map_cons, hblank, replicate_cons]

theorem getD_of_blank {cells : List Byte} (h : ∀ ch ∈ cells, ch = blank) (c : Nat) :
    cells.getD c blank = blank := by
  rw [List.getD_eq_getElem?_getD]
  cases hc : cells[c]? with
  | none => rfl
  | some ch => exact h ch (List.mem_of_getElem? hc)

-- The printable characters of a row are printed one behind the other.
theorem packed_iff :
    (∀ c, (row.filter isprint).getD c blank = (row.map shown).getD c blank) ↔ InOrder row := by
  unfold InOrder
  induction row with
  | nil => simp
  | cons first row ih =>
      rw [List.pairwise_cons, ← ih]
      by_cases hprint : isprint first = true
      · have hshown : shown first = first := if_pos hprint
        rw [List.filter_cons_of_pos hprint, List.map_cons, hshown]
        constructor
        · exact fun h => ⟨fun _ _ => Or.inl hprint, fun c => h (c + 1)⟩
        · rintro ⟨-, h⟩ c
          cases c with
          | zero => rfl
          | succ c => exact h c
      · have hblank : shown first = blank := if_neg hprint
        rw [List.filter_cons_of_neg hprint, List.map_cons, hblank]
        have hall (h : ∀ ch ∈ row, shown ch = blank) (c : Nat) :
            (row.filter isprint).getD c blank = blank ∧ (row.map shown).getD c blank = blank := by
          refine ⟨getD_of_blank (fun ch hch => ?_) c, getD_of_blank (fun ch hch => ?_) c⟩
          · obtain ⟨hmem, hch⟩ := List.mem_filter.mp hch
            rw [← h ch hmem, shown, if_pos hch]
          · obtain ⟨old, hold, rfl⟩ := List.mem_map.mp hch
            exact h old hold
        constructor
        · intro h
          have hrow := shown_of_moved 0 h
          exact ⟨fun ch hch => Or.inr (hrow ch hch),
            fun c => (hall hrow c).1.trans (hall hrow c).2.symm⟩
        · rintro ⟨hrow, -⟩ c
          have hrow' (ch : Byte) (hch : ch ∈ row) : shown ch = blank :=
            (hrow ch hch).resolve_left hprint
          rw [(hall hrow' c).1]
          cases c with
          | zero => rfl
          | succ c => exact (hall hrow' c).2.symm

end

section

variable {LINES COLS : Nat} {Window : Type} (curses : Curses LINES COLS Window)

-- The characters that are added from a column on.
theorem cell_foldl_waddch {l : Fin LINES} (cells : List Byte) {k : Nat} {w : Window}
    (hcursor : ∀ x : Fin COLS, x.val = k → curses.cursor w = (l, x))
    (hroom : k + cells.length ≤ COLS) (r : Fin LINES) (c : Fin COLS) :
    curses.cell (cells.foldl (fun w ch => if isprint ch then curses.waddch ch w else w) w) r c =
      if r = l ∧ k ≤ c.val then (cells.filter isprint)[c.val - k]?.getD (curses.cell w r c)
        else curses.cell w r c := by
  induction cells generalizing k w with
  | nil => simp
  | cons ch cells ih =>
      rw [List.length_cons] at hroom
      rw [List.foldl_cons]
      by_cases hprint : isprint ch = true
      · rw [if_pos hprint, List.filter_cons_of_pos hprint]
        have hhere := hcursor ⟨k, by omega⟩ rfl
        have hnext (x : Fin COLS) (hx : x.val = k + 1) :
            curses.cursor (curses.waddch ch w) = (l, x) := by
          rw [curses.cursor_waddch ch w x hprint (by rw [hhere]; exact hx), hhere]
        rw [ih hnext (by omega), curses.cell_waddch ch w r c hprint, hhere]
        by_cases hr : r = l
        · subst hr
          rcases Nat.lt_trichotomy c.val k with hless | heq | hmore
          · have hne : ¬(r, c) = (r, (⟨k, by omega⟩ : Fin COLS)) := by
              simp only [Prod.mk.injEq, true_and, Fin.ext_iff]
              omega
            rw [if_neg (by omega), if_neg hne, if_neg (by omega)]
          · have hc : c = ⟨k, by omega⟩ := Fin.ext heq
            rw [if_neg (by omega), if_pos (by rw [← hc]), if_pos ⟨rfl, by omega⟩, heq, Nat.sub_self]
            rfl
          · have hne : ¬(r, c) = (r, (⟨k, by omega⟩ : Fin COLS)) := by
              simp only [Prod.mk.injEq, true_and, Fin.ext_iff]
              omega
            have hsub : c.val - k = c.val - (k + 1) + 1 := by omega
            rw [if_pos ⟨rfl, by omega⟩, if_neg hne, if_pos ⟨rfl, by omega⟩, hsub,
              List.getElem?_cons_succ]
        · have hne : ¬(r, c) = (l, (⟨k, by omega⟩ : Fin COLS)) := fun h => hr (Prod.mk.inj h).1
          rw [if_neg (fun h => hr h.1), if_neg hne, if_neg (fun h => hr h.1)]
      · rw [if_neg hprint, List.filter_cons_of_neg hprint]
        exact ih hcursor (by omega)

-- The characters of a line without the cells between them.
def packed (vscreen : Vscreen LINES COLS) (l : Fin LINES) (c : Fin COLS) : Byte :=
  ((row vscreen l).filter isprint).getD c.val blank

theorem packed_shown_iff (vscreen : Vscreen LINES COLS) (r : Fin LINES) :
    (∀ c, packed vscreen r c = shown (vscreen.lines r c)) ↔ InOrder (row vscreen r) := by
  have hshown (c : Fin COLS) : ((row vscreen r).map shown).getD c.val blank =
      shown (vscreen.lines r c) := by
    simp [row, List.getD_eq_getElem?_getD]
  rw [← packed_iff]
  constructor
  · intro h c
    by_cases hc : c < COLS
    · exact (h ⟨c, hc⟩).trans (hshown ⟨c, hc⟩).symm
    · have hlength : (row vscreen r).length = COLS := List.length_ofFn
      have hfilter : ((row vscreen r).filter isprint).length ≤ (row vscreen r).length :=
        List.length_filter_le _ _
      rw [List.getD_eq_default _ _ (by omega),
        List.getD_eq_default _ _ (by rw [List.length_map]; omega)]
  · exact fun h c => (h c).trans (hshown c)

-- What the calls before it have to leave to a call: each line that is rewritten is in
-- order, nothing stands in the other lines that vscreen_show has cleared, and the other
-- lines of vscreen_sync are on the physical screen already when it shows another screen.
def Meets {Screen : Type} (s : State Screen LINES COLS Window) : Call Screen → Prop
  | .vscreenPutc _ _ => True
  | .vscreenSync screen => ∀ r,
      if (s.screens screen).lineChanged r = true then InOrder (row (s.screens screen) r)
      else s.displayed = none ∨ s.displayed = some screen ∨
        ∀ c, curses.cell s.window r c = shown ((s.screens screen).lines r c)
  | .vscreenShow screen => ∀ r,
      if (s.screens screen).lineChanged r = true then InOrder (row (s.screens screen) r)
      else ∀ c, shown ((s.screens screen).lines r c) = blank

-- No screen is synced behind a vscreen_show of another one without one of its own.
def showsFirst {Screen : Type} [DecidableEq Screen] : Option Screen → List (Call Screen) → Bool
  | _, [] => true
  | last, .vscreenPutc _ _ :: calls => showsFirst last calls
  | last, .vscreenSync screen :: calls =>
      (last = none || last = some screen) && showsFirst last calls
  | _, .vscreenShow screen :: calls => showsFirst (some screen) calls

-- The physical screen is that virtual screen.
def Refreshed {Screen : Type} (s : State Screen LINES COLS Window) (screen : Screen) : Prop :=
  ∀ r c, curses.cell s.window r c = shown ((s.screens screen).lines r c)

-- The lines without a flag are on the physical screen of a screen that may be synced.
def Inv {Screen : Type} (s : State Screen LINES COLS Window) : Prop :=
  ∀ screen, (s.displayed = none ∨ s.displayed = some screen) →
    ∀ r, (s.screens screen).lineChanged r = false →
    ∀ c, curses.cell s.window r c = shown ((s.screens screen).lines r c)

theorem inv_of_refreshed {Screen : Type} [DecidableEq Screen] {s : State Screen LINES COLS Window}
    {screen : Screen} {result : Vscreen LINES COLS × Window}
    (h : Refreshed curses (s.rewrite screen result) screen) :
    Inv curses (s.rewrite screen result) := by
  intro other hother r _ c
  rcases hother with hother | hother
  · exact nomatch hother
  · obtain rfl : screen = other := Option.some.inj hother
    exact h r c

-- Behind a loop over the lines, each line is right exactly when it was or is in order.
theorem refreshed_iff {Screen : Type} [DecidableEq Screen] (s : State Screen LINES COLS Window)
    (screen : Screen) (w w' : Window) (vscreen' : Vscreen LINES COLS)
    (hlines : vscreen'.lines = (s.screens screen).lines) (hcell : ∀ r c, curses.cell w' r c =
      if (s.screens screen).lineChanged r = true then packed
      (s.screens screen) r c else curses.cell w r c) :
    Refreshed curses (s.rewrite screen (vscreen', w')) screen ↔
      ∀ r, if (s.screens screen).lineChanged r = true then InOrder (row (s.screens screen) r)
        else ∀ c, curses.cell w r c = shown ((s.screens screen).lines r c) := by
  unfold Refreshed
  simp only [State.rewrite, Function.update_self, hcell, hlines]
  refine forall_congr' fun r => ?_
  by_cases hchanged : (s.screens screen).lineChanged r = true
  · simp only [hchanged, if_true]
    exact packed_shown_iff (s.screens screen) r
  · simp only [hchanged, if_false, Bool.false_eq_true]

variable [NeZero COLS]

theorem cell_updateLine (vscreen : Vscreen LINES COLS) (l : Fin LINES) (w : Window) (r : Fin LINES)
    (c : Fin COLS) :
    curses.cell (updateLine curses vscreen l w) r c = if r = l then packed vscreen l c
      else curses.cell w r c := by
  unfold updateLine
  have hcursor : curses.cursor (curses.wclrtoeol (curses.wmove l 0 w)) = (l, 0) := by
    rw [curses.cursor_wclrtoeol, curses.cursor_wmove]
  have hzero (x : Fin COLS) (hx : x.val = 0) :
      curses.cursor (curses.wclrtoeol (curses.wmove l 0 w)) = (l, x) := by
    have hx0 : x = 0 := Fin.ext (by rw [hx]; rfl)
    rw [hcursor, hx0]
  have hlength : 0 + (row vscreen l).length ≤ COLS := by simp [row]
  rw [curses.cell_wmove, cell_foldl_waddch curses (row vscreen l) hzero hlength,
    curses.cell_wclrtoeol, curses.cursor_wmove, curses.cell_wmove]
  by_cases hr : r = l
  · rw [if_pos ⟨hr, Nat.zero_le _⟩, if_pos hr, if_pos ⟨hr, Fin.zero_le c⟩, packed,
      List.getD_eq_getElem?_getD, Nat.sub_zero]
  · rw [if_neg (fun h => hr h.1), if_neg (fun h => hr h.1), if_neg hr]

-- The loop rewrites the flagged lines and takes the flags away.
theorem foldl_updateLine (ls : List (Fin LINES)) (hnodup : ls.Nodup) (vscreen : Vscreen LINES COLS)
    (w : Window) :
    ∃ w', ls.foldl (fun (vscreen, w) l =>
        if vscreen.lineChanged l then
          ({ vscreen with lineChanged := Function.update vscreen.lineChanged l false },
            updateLine curses vscreen l w)
        else (vscreen, w)) (vscreen, w) =
          ({ vscreen with lineChanged := fun r => vscreen.lineChanged r && !decide (r ∈ ls) }, w') ∧
      ∀ r c, curses.cell w' r c =
        if r ∈ ls ∧ vscreen.lineChanged r = true then packed vscreen r c
          else curses.cell w r c := by
  induction ls generalizing vscreen w with
  | nil => exact ⟨w, by simp, by simp⟩
  | cons l ls ih =>
      obtain ⟨hl, hls⟩ := List.nodup_cons.mp hnodup
      rw [List.foldl_cons]
      by_cases hchanged : vscreen.lineChanged l = true
      · simp only [hchanged, if_true]
        obtain ⟨w', hfold, hcell⟩ :=
          ih hls { vscreen with lineChanged := Function.update vscreen.lineChanged l false }
          (updateLine curses vscreen l w)
        refine ⟨w', ?_, fun r c => ?_⟩
        · rw [hfold]
          congr 2
          funext r
          by_cases hr : r = l
          · subst hr
            simp
          · simp [hr]
        · rw [hcell r c, cell_updateLine]
          by_cases hr : r = l
          · subst hr
            simp [hl, hchanged]
          · simp only [Function.update_of_ne hr, List.mem_cons, hr, false_or]
            rfl
      · simp only [hchanged, if_false, Bool.false_eq_true]
        obtain ⟨w', hfold, hcell⟩ := ih hls vscreen w
        refine ⟨w', ?_, fun r c => ?_⟩
        · rw [hfold]
          congr 2
          funext r
          by_cases hr : r = l
          · subst hr
            simp [hchanged]
          · simp [hr]
        · rw [hcell r c]
          by_cases hr : r = l
          · subst hr
            simp [hchanged]
          · simp [hr]

theorem updateLines_spec (vscreen : Vscreen LINES COLS) (w : Window) :
    ∃ w', updateLines curses vscreen w = ({ vscreen with lineChanged := fun _ => false }, w') ∧
      ∀ r c, curses.cell w' r c = if vscreen.lineChanged r = true then packed vscreen r c
        else curses.cell w r c := by
  obtain ⟨w', hfold, hcell⟩ :=
    foldl_updateLine curses (List.finRange LINES) (List.nodup_finRange LINES) vscreen w
  refine ⟨w', ?_, fun r c => ?_⟩
  · rw [updateLines, hfold]
    simp
  · rw [hcell r c]
    simp

variable [NeZero LINES] {Screen : Type}

theorem inv_start (w : Window) : Inv curses
    (State.start curses w : State Screen LINES COLS Window) := by
  intro screen _ r _ c
  exact curses.cell_wclear w r c

-- A line that vscreen_putc changes is flagged.
theorem vscreenPutc_spec (vscreen : Vscreen LINES COLS) (ch : Byte) :
    ∃ l line, (vscreenPutc vscreen ch).lines = Function.update vscreen.lines l line ∧
      (vscreenPutc vscreen ch).lineChanged = Function.update vscreen.lineChanged l true := by
  unfold vscreenPutc
  by_cases hprint : isprint ch = true
  · simp only [if_pos hprint]
    by_cases hcol : vscreen.curCol.val + 1 < COLS
    · rw [dif_pos hcol]
      exact ⟨_, _, rfl, rfl⟩
    · rw [dif_neg hcol]
      exact ⟨_, _, rfl, rfl⟩
  · by_cases hfeed : ch = 10
    · simp only [if_neg hprint, if_pos hfeed]
      exact ⟨_, _, rfl, rfl⟩
    · by_cases hreturn : ch = 13
      · simp only [if_neg hprint, if_neg hfeed, if_pos hreturn]
        exact ⟨_, _, rfl, rfl⟩
      · simp only [if_neg hprint, if_neg hfeed, if_neg hreturn]
        exact ⟨_, _, rfl, rfl⟩

theorem vscreenPutc_line {vscreen : Vscreen LINES COLS} {ch : Byte} {r : Fin LINES}
    (h : (vscreenPutc vscreen ch).lineChanged r = false) :
    vscreen.lineChanged r = false ∧ (vscreenPutc vscreen ch).lines r = vscreen.lines r := by
  obtain ⟨l, line, hlines, hflags⟩ := vscreenPutc_spec vscreen ch
  rw [hflags] at h
  rw [hlines]
  by_cases hr : r = l
  · subst hr
    rw [Function.update_self] at h
    exact nomatch h
  · rw [Function.update_of_ne hr] at h ⊢
    exact ⟨h, rfl⟩

variable [DecidableEq Screen]

-- A call that rewrites the physical screen leaves it with the virtual one.
def Shows (s : State Screen LINES COLS Window) (call : Call Screen) : Prop :=
  match call with
  | .vscreenPutc _ _ => True
  | .vscreenSync screen => Refreshed curses (step curses s call) screen
  | .vscreenShow screen => Refreshed curses (step curses s call) screen

theorem shows_iff {s : State Screen LINES COLS Window} {call : Call Screen} (hs : Inv curses s) :
    Shows curses s call ↔ Meets curses s call := by
  cases call with
  | vscreenPutc screen ch => exact Iff.rfl
  | vscreenSync screen =>
      obtain ⟨w', hlines, hcell⟩ := updateLines_spec curses (s.screens screen) s.window
      let flagless : Vscreen LINES COLS := { s.screens screen with lineChanged := fun _ => false }
      have hiff := refreshed_iff curses s screen s.window
        (curses.wmove (s.screens screen).curLine (s.screens screen).curCol w') flagless rfl
        (by rw [curses.cell_wmove]; exact hcell)
      simp only [Shows, step, vscreenSync, hlines, Meets]
      refine hiff.trans (forall_congr' fun r => ?_)
      by_cases hchanged : (s.screens screen).lineChanged r = true
      · simp only [hchanged, if_true]
      · simp only [hchanged, if_false, Bool.false_eq_true]
        have hkept (hown : s.displayed = none ∨ s.displayed = some screen) :=
          hs screen hown r (by simpa using hchanged)
        constructor
        · exact fun h => Or.inr (Or.inr h)
        · rintro (hnone | hown | h)
          · exact hkept (Or.inl hnone)
          · exact hkept (Or.inr hown)
          · exact h
  | vscreenShow screen =>
      obtain ⟨w', hlines, hcell⟩ :=
        updateLines_spec curses (s.screens screen) (curses.wclear s.window)
      let flagless : Vscreen LINES COLS := { s.screens screen with lineChanged := fun _ => false }
      have hiff := refreshed_iff curses s screen (curses.wclear s.window)
        (curses.wmove (s.screens screen).curLine (s.screens screen).curCol w') flagless rfl
        (by rw [curses.cell_wmove]; exact hcell)
      simp only [Shows, step, vscreenShow, hlines, Meets]
      refine hiff.trans (forall_congr' fun r => ?_)
      simp only [curses.cell_wclear, eq_comm]

theorem inv_step {s : State Screen LINES COLS Window} {call : Call Screen} (hs : Inv curses s)
    (h : Shows curses s call) : Inv curses (step curses s call) := by
  cases call with
  | vscreenPutc screen ch =>
      intro other hother r hchanged c
      simp only [step] at hchanged ⊢
      by_cases hsame : other = screen
      · subst hsame
        rw [Function.update_self] at hchanged ⊢
        obtain ⟨hold, hline⟩ := vscreenPutc_line hchanged
        rw [hline]
        exact hs other hother r hold c
      · rw [Function.update_of_ne hsame] at hchanged ⊢
        exact hs other hother r hchanged c
  | vscreenSync screen => exact inv_of_refreshed curses h
  | vscreenShow screen => exact inv_of_refreshed curses h

-- In every run, the physical screen is right behind every call exactly when every call
-- finds what it needs.
theorem refreshed_iff_meets (w : Window) (calls : List (Call Screen)) :
    Lib.Throughout (step curses) (Shows curses) calls (.start curses w) ↔
      Lib.Throughout (step curses) (Meets curses) calls (.start curses w) :=
  Lib.throughout_iff (Inv curses) (fun _ _ hs => shows_iff curses hs)
    (fun _ _ hs h => inv_step curses hs h) calls (inv_start curses w)

end

-- A window in memory. A character in the last column moves the cursor to the next line,
-- except in the last one.
structure Grid (LINES COLS : Nat) where
  cells : Fin LINES → Fin COLS → Byte
  cursor : Fin LINES × Fin COLS

def Grid.advance {LINES COLS : Nat} [NeZero COLS] (cursor : Fin LINES × Fin COLS) :
    Fin LINES × Fin COLS :=
  if h : cursor.2.val + 1 < COLS then (cursor.1, ⟨cursor.2.val + 1, h⟩)
  else if h : cursor.1.val + 1 < LINES then (⟨cursor.1.val + 1, h⟩, 0)
  else cursor

def grid (LINES COLS : Nat) [NeZero LINES] [NeZero COLS] : Curses LINES COLS (Grid LINES COLS) where
  cell := Grid.cells
  cursor := Grid.cursor
  wmove := fun y x w => { w with cursor := (y, x) }
  waddch := fun ch w => ⟨fun r c => if (r, c) = w.cursor then ch
    else w.cells r c, Grid.advance w.cursor⟩
  wclrtoeol := fun w =>
    { w with cells := fun r c => if r = w.cursor.1 ∧ w.cursor.2 ≤ c then blank else w.cells r c }
  wclear := fun _ => ⟨fun _ _ => blank, (0, 0)⟩
  cell_wmove := fun _ _ _ => rfl
  cursor_wmove := fun _ _ _ => rfl
  cell_waddch := fun _ _ _ _ _ => rfl
  cursor_waddch := fun ch w x _ hx => by
    have hroom : w.cursor.2.val + 1 < COLS := hx ▸ x.isLt
    rw [Grid.advance, dif_pos hroom]
    exact Prod.ext rfl (Fin.ext hx.symm)
  cell_wclrtoeol := fun _ _ _ => rfl
  cursor_wclrtoeol := fun _ => rfl
  cell_wclear := fun _ _ _ => rfl

theorem refreshed_of_two_screens :
    let w : Grid 2 3 := ⟨fun _ _ => blank, (0, 0)⟩
    let calls : List (Call Bool) :=
      [.vscreenPutc false 97, .vscreenPutc false 98, .vscreenSync false, .vscreenPutc true 99,
      .vscreenShow true, .vscreenPutc true 13, .vscreenPutc true 100, .vscreenSync true]
    Lib.Throughout (step (grid 2 3)) (Shows (grid 2 3)) calls (.start (grid 2 3) w) := by
  intro w calls
  refine (refreshed_iff_meets (grid 2 3) w calls).mpr ?_
  refine ⟨trivial, trivial, ?_, trivial, ?_, trivial, trivial, ?_, trivial⟩
  · unfold Meets
    decide
  · unfold Meets
    decide
  · unfold Meets
    decide

-- A screen that is shown a second time is empty, the cells in front of a character that a
-- line feed has cleared are lost, and a screen that is synced behind another one leaves the
-- lines of that one.
theorem not_refreshed_of_second_show :
    let w : Grid 2 2 := ⟨fun _ _ => blank, (0, 0)⟩
    let twice : List (Call Bool) :=
      [.vscreenPutc false 97, .vscreenShow false, .vscreenShow false]
    let feed : List (Call Bool) :=
      [.vscreenPutc false 97, .vscreenPutc false 10, .vscreenPutc false 98, .vscreenSync false]
    let switch : List (Call Bool) :=
      [.vscreenPutc false 97, .vscreenSync false, .vscreenSync true]
    ∀ calls ∈ [twice, feed, switch], showsFirst none calls = true ∧
      ¬Lib.Throughout (step (grid 2 2)) (Shows (grid 2 2)) calls (.start (grid 2 2) w) := by
  intro w twice feed switch calls hcalls
  simp only [List.mem_cons, List.not_mem_nil, or_false] at hcalls
  rcases hcalls with rfl | rfl | rfl
  · refine ⟨by decide, ?_⟩
    rintro ⟨-, -, hshow, -⟩
    exact absurd (hshow 0 0) (by decide)
  · refine ⟨by decide, ?_⟩
    rintro ⟨-, -, -, hsync, -⟩
    exact absurd (hsync 1 0) (by decide)
  · refine ⟨by decide, ?_⟩
    rintro ⟨-, -, hsync, -⟩
    exact absurd (hsync 0 0) (by decide)

end CSE320.Imprimer
