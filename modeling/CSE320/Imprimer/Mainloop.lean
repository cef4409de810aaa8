import CSE320.Imprimer.Refresh
import CSE320.Lib.Sweep
import Mathlib.Data.List.TakeWhile

namespace CSE320.Imprimer

open Lib (Byte)

def maxSessions : Nat := 10

def commandEscape : Int := 1

-- The descriptor is that of the master side of the pty.
structure Session (LINES COLS : Nat) where
  ptyfd : Nat
  error : Bool
  vscreen : Vscreen LINES COLS

-- What the system answers in one turn of the loop: the character that has been typed, if
-- any, the one behind a command escape, the descriptors with input unless select fails, and
-- the bytes that a read gets, or EOF.
structure Turn where
  key : Option Int
  command : Option Int
  readable : Option (Nat → Bool)
  read : Nat → Option (List Byte)

-- The globals, with the bytes that have been written to each pty.
structure Ecran (LINES COLS : Nat) (Window : Type) where
  sessions : List (Option (Session LINES COLS))
  fgSession : Option Nat
  window : Window
  written : List (Nat × Byte)

section

variable {LINES COLS : Nat} {Window : Type}

def Ecran.session (e : Ecran LINES COLS Window) (i : Nat) : Option (Session LINES COLS) :=
  e.sessions[i]?.join

-- The result is NULL when the foreground session is.
def sessionPutc (c : Int) (e : Ecran LINES COLS Window) : Option (Ecran LINES COLS Window) := do
  let session ← e.session (← e.fgSession)
  return { e with written := e.written ++ [(session.ptyfd, BitVec.ofInt 8 c)] }

-- The descriptors of the sessions without an error, and the last one plus one.
def setfds (sessions : List (Option (Session LINES COLS))) : List Nat × Nat :=
  sessions.foldl (fun (fds, nfds) session =>
    match session with
    | none => (fds, nfds)
    | some session =>
      if session.error then (fds, nfds) else (fds ++ [session.ptyfd], session.ptyfd + 1)) ([], 0)

def select (nfds : Nat) (fds : List Nat) (readable : Nat → Bool) : List Nat :=
  fds.filter fun fd => fd < nfds && readable fd

-- The command of the character behind a command escape either ends the program or flashes.
def doCommand (command : Option Int) : Bool := command ≠ some 113

-- The first part of a turn, and whether there is another part.
def readKey (t : Turn) (e : Ecran LINES COLS Window) : Option (Bool × Ecran LINES COLS Window) :=
  match t.key with
  | none => some (true, e)
  | some c =>
    if c = commandEscape then some (doCommand t.command, e)
    else (sessionPutc c e).map fun e => (true, e)

variable [NeZero LINES] [NeZero COLS]

-- The new session has the first free place. Without a pty there is none.
def sessionInit (mfd : Option Nat) (e : Ecran LINES COLS Window) : Ecran LINES COLS Window :=
  match e.sessions.findIdx? Option.isNone, mfd with
  | some i, some mfd =>
    let session : Session LINES COLS := ⟨mfd, false, vscreenInit LINES COLS⟩
    { e with sessions := e.sessions.set i (some session), fgSession := some i }
  | _, _ => e

variable (curses : Curses LINES COLS Window)

-- The function initialize of the source.
def initializeEcran (mfd : Option Nat) (w : Window) : Ecran LINES COLS Window :=
  sessionInit mfd ⟨List.replicate maxSessions none, none, curses.wclear w, []⟩

-- Each byte that has been read is put and shown.
def showBytes (buf : List Byte) (vscreen : Vscreen LINES COLS) (w : Window) :
    Vscreen LINES COLS × Window :=
  buf.foldl (fun (vscreen, w) ch => vscreenSync curses (vscreenPutc vscreen ch) w) (vscreen, w)

def readSession (t : Turn) (fds : List Nat) (i : Nat) (e : Ecran LINES COLS Window) :
    Ecran LINES COLS Window :=
  match e.session i with
  | none => e
  | some session =>
    if fds.contains session.ptyfd then
      match t.read session.ptyfd with
      | none => { e with sessions := e.sessions.set i (some { session with error := true }) }
      | some buf =>
        let (vscreen, window) := showBytes curses buf session.vscreen e.window
        { e with sessions := e.sessions.set i (some { session with vscreen }), window }
    else e

-- The second part of a turn.
def readSessions (t : Turn) (e : Ecran LINES COLS Window) : Ecran LINES COLS Window :=
  let (fds, nfds) := setfds e.sessions
  match t.readable with
  | none => e
  | some readable =>
    let fds := select nfds fds readable
    if fds.length > 0 then
      (List.range maxSessions).foldl (fun e i => readSession curses t fds i e) e
    else e

-- The turns that the loop has made, up to the end of the program. The result is NULL when a
-- key has been typed without a session.
def mainloop : List Turn → Ecran LINES COLS Window → Option (Ecran LINES COLS Window)
  | [], e => some e
  | t :: turns, e => do
    let (more, e) ← readKey t e
    if more then mainloop turns (readSessions curses t e) else some e

end

-- What the loop is for: the keys go to the pty, but for the commands, and what the pty
-- writes up to its end goes to the screen.
def Turn.quits (t : Turn) : Bool := t.key = some commandEscape && t.command = some 113

def Turn.typed (t : Turn) : Option Byte :=
  match t.key with
  | none => none
  | some c => if c = commandEscape then none else some (BitVec.ofInt 8 c)

def Turn.received (fd : Nat) (t : Turn) : Option (Option (List Byte)) :=
  match t.readable with
  | none => none
  | some readable => if readable fd then some (t.read fd) else none

def typed (turns : List Turn) : List Byte :=
  (turns.takeWhile fun t => !t.quits).filterMap Turn.typed

def received (fd : Nat) (turns : List Turn) : List Byte :=
  (((turns.takeWhile fun t => !t.quits).filterMap (Turn.received fd)).takeWhile
    Option.isSome).reduceOption.flatten

-- What is left of a virtual screen behind each refresh.
def Vscreen.synced {LINES COLS : Nat} (vscreen : Vscreen LINES COLS) : Vscreen LINES COLS :=
  { vscreen with lineChanged := fun _ => false }

section

variable {LINES COLS : Nat} [NeZero LINES] [NeZero COLS]

-- The screen that a fresh one becomes.
def emulated (LINES COLS : Nat) [NeZero LINES] [NeZero COLS] (bytes : List Byte) :
    Vscreen LINES COLS :=
  bytes.foldl vscreenPutc (vscreenInit LINES COLS)

theorem emulated_append (first second : List Byte) :
    emulated LINES COLS (first ++ second) = second.foldl vscreenPutc (emulated LINES COLS first) :=
  List.foldl_append

-- The flags say only what is to be refreshed.
theorem vscreenPutc_synced (vscreen : Vscreen LINES COLS) (ch : Byte) :
    (vscreenPutc vscreen.synced ch).synced = (vscreenPutc vscreen ch).synced := by
  unfold vscreenPutc
  by_cases hprint : isprint ch = true
  · simp only [if_pos hprint]
    by_cases hcol : vscreen.curCol.val + 1 < COLS
    · have hcol' : vscreen.synced.curCol.val + 1 < COLS := hcol
      rw [dif_pos hcol, dif_pos hcol']
      rfl
    · have hcol' : ¬vscreen.synced.curCol.val + 1 < COLS := hcol
      rw [dif_neg hcol, dif_neg hcol']
      rfl
  · simp only [if_neg hprint]
    by_cases hfeed : ch = 10
    · simp only [if_pos hfeed]
      rfl
    · simp only [if_neg hfeed]
      by_cases hreturn : ch = 13
      · simp only [if_pos hreturn]
        rfl
      · simp only [if_neg hreturn]
        rfl

omit [NeZero LINES] [NeZero COLS] in
theorem packed_congr {v v' : Vscreen LINES COLS} {r : Fin LINES} (h : v.lines r = v'.lines r)
    (c : Fin COLS) : packed v r c = packed v' r c := by
  rw [packed, packed, row, row, h]

variable {Window : Type} (curses : Curses LINES COLS Window)

omit [NeZero LINES] in
theorem vscreenSync_spec (vscreen : Vscreen LINES COLS) (w : Window) :
    ∃ w', vscreenSync curses vscreen w = (vscreen.synced, w') ∧
      (∀ r c, curses.cell w' r c = if vscreen.lineChanged r = true then packed vscreen r c
        else curses.cell w r c) ∧ curses.cursor w' = (vscreen.curLine, vscreen.curCol) := by
  obtain ⟨w', hlines, hcell⟩ := updateLines_spec curses vscreen w
  refine ⟨curses.wmove vscreen.curLine vscreen.curCol w', ?_, fun r c => ?_, ?_⟩
  · rw [vscreenSync, hlines]
    rfl
  · rw [curses.cell_wmove]
    exact hcell r c
  · exact curses.cursor_wmove _ _ w'

-- The window shows each line with its characters one behind the other, and the cursor.
def Displayed (vscreen : Vscreen LINES COLS) (w : Window) : Prop :=
  ∀ r c, curses.cell w r c = packed vscreen r c

theorem showByte_spec {vscreen : Vscreen LINES COLS} {w : Window} (ch : Byte)
    (h : Displayed curses vscreen w) :
    ∃ w', vscreenSync curses (vscreenPutc vscreen.synced ch) w =
        ((vscreenPutc vscreen ch).synced, w') ∧ Displayed curses (vscreenPutc vscreen ch) w' ∧
      curses.cursor w' = ((vscreenPutc vscreen ch).curLine, (vscreenPutc vscreen ch).curCol) := by
  have hsynced := vscreenPutc_synced vscreen ch
  have hlines : (vscreenPutc vscreen.synced ch).lines = (vscreenPutc vscreen ch).lines :=
    congrArg (fun v => v.lines) hsynced
  obtain ⟨w', hsync, hcell, hcursor⟩ :=
    vscreenSync_spec curses (vscreenPutc vscreen.synced ch) w
  refine ⟨w', hsync.trans (by rw [hsynced]), fun r c => ?_, hcursor.trans ?_⟩
  · rw [hcell r c]
    by_cases hchanged : (vscreenPutc vscreen.synced ch).lineChanged r = true
    · rw [if_pos hchanged]
      exact packed_congr (congrFun hlines r) c
    · -- a line without a flag is one that the character has not changed
      obtain ⟨-, hline⟩ := vscreenPutc_line (Bool.eq_false_iff.mpr hchanged)
      rw [if_neg hchanged, h r c]
      exact packed_congr (hline.symm.trans (congrFun hlines r)) c
  · exact congrArg (fun v => (v.curLine, v.curCol)) hsynced

theorem showBytes_cons (ch : Byte) (buf : List Byte) (vscreen : Vscreen LINES COLS) (w : Window) :
    showBytes curses (ch :: buf) vscreen w =
      showBytes curses buf (vscreenSync curses (vscreenPutc vscreen ch) w).1
        (vscreenSync curses (vscreenPutc vscreen ch) w).2 := rfl

theorem showBytes_spec (buf : List Byte) {vscreen : Vscreen LINES COLS} {w : Window}
    (h : Displayed curses vscreen w) :
    ∃ w', showBytes curses buf vscreen.synced w = ((buf.foldl vscreenPutc vscreen).synced, w') ∧
      Displayed curses (buf.foldl vscreenPutc vscreen) w' ∧
      if buf = [] then w' = w
      else curses.cursor w' = ((buf.foldl vscreenPutc vscreen).curLine,
        (buf.foldl vscreenPutc vscreen).curCol) := by
  induction buf generalizing vscreen w with
  | nil => exact ⟨w, rfl, h, rfl⟩
  | cons ch buf ih =>
      obtain ⟨w', hsync, hshown, hcursor⟩ := showByte_spec curses ch h
      obtain ⟨w'', hrest, hshown', hcursor'⟩ := ih hshown
      refine ⟨w'', ?_, hshown', ?_⟩
      · rw [showBytes_cons, hsync]
        exact hrest
      · rw [if_neg (List.cons_ne_nil ch buf), List.foldl_cons]
        by_cases hbuf : buf = []
        · rw [if_pos hbuf] at hcursor'
          rw [hcursor', hbuf]
          exact hcursor
        · rwa [if_neg hbuf] at hcursor'

-- The only session, which has the first place, and what has gone through it.
structure Relays (mfd : Nat) (error : Bool) (keys bytes : List Byte)
    (e : Ecran LINES COLS Window) : Prop where
  sessions : e.sessions =
    some ⟨mfd, error, (emulated LINES COLS bytes).synced⟩ :: List.replicate 9 none
  fgSession : e.fgSession = some 0
  written : e.written = keys.map (Prod.mk mfd)
  displayed : Displayed curses (emulated LINES COLS bytes) e.window
  cursor : bytes ≠ [] → curses.cursor e.window =
    ((emulated LINES COLS bytes).curLine, (emulated LINES COLS bytes).curCol)

theorem relays_at_start (mfd : Nat) (w : Window) :
    Relays curses mfd false [] [] (initializeEcran curses (some mfd) w) where
  sessions := rfl
  fgSession := rfl
  written := rfl
  displayed := fun r c => by
    have hclear : curses.cell (curses.wclear w) r c = blank := curses.cell_wclear w r c
    have hrow : row (emulated LINES COLS []) r = List.replicate COLS 0 := List.ofFn_const ..
    have hnone : (List.replicate COLS (0 : Byte)).filter isprint = [] := by
      rw [List.filter_replicate_of_neg (by decide)]
    rw [packed, hrow, hnone]
    exact hclear
  cursor := fun hne => absurd rfl hne

variable {curses} {mfd : Nat} {error : Bool} {keys bytes : List Byte}
  {e : Ecran LINES COLS Window}

theorem Relays.session (h : Relays curses mfd error keys bytes e) :
    e.session 0 = some ⟨mfd, error, (emulated LINES COLS bytes).synced⟩ := by
  rw [Ecran.session, h.sessions]
  rfl

theorem Relays.session_succ (h : Relays curses mfd error keys bytes e) (i : Nat) :
    e.session (i + 1) = none := by
  rw [Ecran.session, h.sessions, List.getElem?_cons_succ, List.getElem?_replicate]
  split
  · rfl
  · rfl

theorem Relays.key (h : Relays curses mfd error keys bytes e) (t : Turn) :
    ∃ e', readKey t e = some (!t.quits, e') ∧
      Relays curses mfd error (keys ++ t.typed.toList) bytes e' := by
  have hsame : Relays curses mfd error (keys ++ []) bytes e := by
    rw [List.append_nil]
    exact h
  unfold readKey Turn.quits Turn.typed
  cases hkey : t.key with
  | none => exact ⟨e, rfl, hsame⟩
  | some c =>
      by_cases hescape : c = commandEscape
      · simp only [if_pos hescape]
        refine ⟨e, ?_, hsame⟩
        rw [hescape, decide_eq_true rfl, Bool.true_and, doCommand, decide_not]
      · have hquits : ¬some c = some commandEscape := fun heq => hescape (Option.some.inj heq)
        simp only [if_neg hescape, sessionPutc, h.fgSession, h.session, Option.bind_eq_bind,
          Option.bind_some, decide_eq_false hquits, Bool.false_and]
        refine ⟨_, rfl, h.sessions, rfl, ?_, h.displayed, h.cursor⟩
        rw [h.written, List.map_append]
        rfl

-- A session is read no more behind its end.
def Turn.after (t : Turn) (mfd : Nat) (error : Bool) (bytes : List Byte) : Bool × List Byte :=
  if error then (error, bytes)
  else
    match t.received mfd with
    | none => (false, bytes)
    | some none => (true, bytes)
    | some (some buf) => (false, bytes ++ buf)

omit [NeZero LINES] [NeZero COLS] in
theorem setfds_replicate (n : Nat) (result : List Nat × Nat) :
    (List.replicate n (none : Option (Session LINES COLS))).foldl (fun (fds, nfds) session =>
      match session with
      | none => (fds, nfds)
      | some session =>
        if session.error then (fds, nfds) else (fds ++ [session.ptyfd], session.ptyfd + 1))
      result = result := by
  induction n generalizing result with
  | zero => rfl
  | succ n ih => exact ih result

theorem Relays.setfds (h : Relays curses mfd error keys bytes e) :
    setfds e.sessions = if error then ([], 0) else ([mfd], mfd + 1) := by
  rw [Imprimer.setfds, h.sessions, List.foldl_cons, setfds_replicate]
  rfl

-- The read of the session, and none in the other places.
theorem Relays.readSession (h : Relays curses mfd false keys bytes e) (t : Turn) :
    Relays curses mfd (t.read mfd).isNone keys (bytes ++ (t.read mfd).getD [])
      (readSession curses t [mfd] 0 e) := by
  have hmem : [mfd].contains mfd = true := by simp
  unfold Imprimer.readSession
  simp only [h.session, hmem, if_true]
  cases t.read mfd with
  | none =>
      rw [Option.getD_none, List.append_nil]
      refine ⟨?_, h.fgSession, h.written, h.displayed, h.cursor⟩
      rw [h.sessions]
      rfl
  | some buf =>
      obtain ⟨w', hshow, hshown, hcursor⟩ := showBytes_spec curses buf h.displayed
      rw [← emulated_append] at hshow hshown hcursor
      simp only [hshow]
      refine ⟨?_, h.fgSession, h.written, hshown, fun hne => ?_⟩
      · rw [h.sessions]
        rfl
      · rw [Option.getD_some] at hne ⊢
        by_cases hbuf : buf = []
        · rw [if_pos hbuf] at hcursor
          rw [hbuf, List.append_nil] at hne ⊢
          rw [hcursor]
          exact h.cursor hne
        · rwa [if_neg hbuf] at hcursor

theorem Relays.readPlaces (h : Relays curses mfd false keys bytes e) (t : Turn) :
    Relays curses mfd (t.read mfd).isNone keys (bytes ++ (t.read mfd).getD [])
      ((List.range maxSessions).foldl (fun e i => Imprimer.readSession curses t [mfd] i e) e) := by
  have hplaces : List.range maxSessions = 0 :: (List.range 9).map Nat.succ := by rfl
  have hfirst := h.readSession t
  have hrest : Lib.sweep (Imprimer.readSession curses t [mfd]) ((List.range 9).map Nat.succ)
      (Imprimer.readSession curses t [mfd] 0 e) = Imprimer.readSession curses t [mfd] 0 e := by
    refine Lib.sweep_of_idle fun i hi => ?_
    obtain ⟨j, -, rfl⟩ := List.mem_map.mp hi
    rw [Imprimer.readSession, hfirst.session_succ]
  unfold Lib.sweep at hrest
  rw [hplaces, List.foldl_cons, hrest]
  exact hfirst

theorem Relays.read (h : Relays curses mfd error keys bytes e) (t : Turn) :
    Relays curses mfd (t.after mfd error bytes).1 keys (t.after mfd error bytes).2
      (readSessions curses t e) := by
  unfold readSessions
  rw [h.setfds]
  unfold Turn.after Turn.received
  cases error with
  | true =>
      simp only [if_true]
      cases t.readable with
      | none => exact h
      | some readable => exact h
  | false =>
      simp only [Bool.false_eq_true, if_false]
      cases t.readable with
      | none => exact h
      | some readable =>
          by_cases hready : readable mfd = true
          · have hselect : select (mfd + 1) [mfd] readable = [mfd] := by simp [select, hready]
            have hplaces := h.readPlaces t
            simp only [hselect, if_pos hready, List.length_singleton, gt_iff_lt, Nat.one_pos,
              if_true]
            cases hread : t.read mfd with
            | none =>
                rw [hread, Option.getD_none, List.append_nil] at hplaces
                exact hplaces
            | some buf =>
                rw [hread] at hplaces
                exact hplaces
          · have hselect : select (mfd + 1) [mfd] readable = [] := by simp [select, hready]
            simp only [hselect, if_neg hready, List.length_nil, gt_iff_lt, Nat.lt_irrefl, if_false]
            exact h

theorem typed_cons (t : Turn) (turns : List Turn) :
    typed (t :: turns) = if t.quits then [] else t.typed.toList ++ typed turns := by
  unfold typed
  cases hquits : t.quits with
  | true =>
      rw [List.takeWhile_cons_of_neg (by simp [hquits])]
      rfl
  | false =>
      rw [List.takeWhile_cons_of_pos (by simp [hquits]), List.filterMap_cons]
      cases t.typed with
      | none => rfl
      | some ch => rfl

theorem received_cons (fd : Nat) (t : Turn) (turns : List Turn) :
    received fd (t :: turns) =
      if t.quits then []
      else
        match t.received fd with
        | none => received fd turns
        | some none => []
        | some (some buf) => buf ++ received fd turns := by
  unfold received
  cases hquits : t.quits with
  | true =>
      rw [List.takeWhile_cons_of_neg (by simp [hquits])]
      rfl
  | false =>
      rw [List.takeWhile_cons_of_pos (by simp [hquits]), List.filterMap_cons]
      cases t.received fd with
      | none => rfl
      | some result =>
          cases result with
          | none => rfl
          | some buf => rfl

-- The bytes behind some turns, unless the session has come to its end.
theorem after_received (mfd : Nat) (error : Bool) (bytes : List Byte) {t : Turn}
    (turns : List Turn) (hquits : t.quits = false) :
    (if (t.after mfd error bytes).1 then (t.after mfd error bytes).2
      else (t.after mfd error bytes).2 ++ received mfd turns) =
      if error then bytes else bytes ++ received mfd (t :: turns) := by
  rw [received_cons, hquits, if_neg Bool.false_ne_true]
  unfold Turn.after
  cases error with
  | true => rfl
  | false =>
      simp only [Bool.false_eq_true, if_false]
      cases t.received mfd with
      | none => rfl
      | some result =>
          cases result with
          | none => exact (List.append_nil bytes).symm
          | some buf => exact List.append_assoc bytes buf (received mfd turns)

theorem Relays.mainloop (h : Relays curses mfd error keys bytes e) (turns : List Turn) :
    ∃ final error', mainloop curses turns e = some final ∧
      Relays curses mfd error' (keys ++ typed turns)
        (if error then bytes else bytes ++ received mfd turns) final := by
  induction turns generalizing e error keys bytes with
  | nil =>
      refine ⟨e, error, rfl, ?_⟩
      have hnone : received mfd [] = [] := rfl
      have hkeys : typed [] = [] := rfl
      rw [hnone, hkeys, List.append_nil, List.append_nil, ite_self]
      exact h
  | cons t turns ih =>
      obtain ⟨e', hkey, h'⟩ := h.key t
      rw [Imprimer.mainloop, hkey, typed_cons]
      cases hquits : t.quits with
      | true =>
          have htyped : t.typed = none := by
            unfold Turn.quits at hquits
            unfold Turn.typed
            rw [Bool.and_eq_true, decide_eq_true_eq] at hquits
            simp only [hquits.1, if_true]
          rw [htyped] at h'
          refine ⟨e', error, rfl, ?_⟩
          rw [received_cons, hquits, if_pos rfl, if_pos rfl, List.append_nil bytes, ite_self]
          exact h'
      | false =>
          obtain ⟨final, error', hrun, hfinal⟩ := ih (h'.read t)
          rw [after_received mfd error bytes turns hquits, List.append_assoc] at hfinal
          exact ⟨final, error', hrun, hfinal⟩

-- In every run of the loop with a session, what is typed goes to the pty in its order, but
-- for the commands, what is read from the pty up to its end goes to the virtual screen, and
-- the physical screen shows each line of that with its characters one behind the other.
theorem mainloop_relays (curses : Curses LINES COLS Window) (mfd : Nat) (w : Window)
    (turns : List Turn) :
    ∃ final session, mainloop curses turns (initializeEcran curses (some mfd) w) = some final ∧
      final.session 0 = some session ∧ final.written = (typed turns).map (Prod.mk mfd) ∧
      session.vscreen = (emulated LINES COLS (received mfd turns)).synced ∧
      Displayed curses session.vscreen final.window ∧
      (received mfd turns ≠ [] →
        curses.cursor final.window = (session.vscreen.curLine, session.vscreen.curCol)) := by
  obtain ⟨final, error, hrun, h⟩ := (relays_at_start curses mfd w).mainloop turns
  rw [List.nil_append, if_neg Bool.false_ne_true, List.nil_append] at h
  exact ⟨final, _, hrun, h.session, h.written, rfl, h.displayed, h.cursor⟩

-- The b stands in the second column of the virtual screen, and what comes behind the end of
-- the pty or behind the quit command is lost.
theorem mainloop_relays_of_quit :
    let w : Grid 2 3 := ⟨fun _ _ => blank, (0, 0)⟩
    let turns : List Turn :=
      [⟨some 108, none, some fun _ => true, fun _ => some [97, 10, 98]⟩,
      ⟨some 1, some 99, none, fun _ => none⟩,
      ⟨none, none, some fun _ => true, fun _ => none⟩,
      ⟨some 120, none, some fun _ => true, fun _ => some [99]⟩,
      ⟨some 1, some 113, none, fun _ => none⟩,
      ⟨some 121, none, none, fun _ => none⟩]
    ∃ final, mainloop (grid 2 3) turns (initializeEcran (grid 2 3) (some 5) w) = some final ∧
      final.written = [(5, 108), (5, 120)] ∧ (grid 2 3).cell final.window 1 0 = 98 ∧
      (grid 2 3).cursor final.window = (1, 2) := by
  intro w turns
  obtain ⟨final, session, hrun, -, hwritten, hvscreen, hdisplayed, hcursor⟩ :=
    mainloop_relays (grid 2 3) 5 w turns
  have hreceived : received 5 turns = [97, 10, 98] := by decide
  rw [hreceived] at hvscreen hcursor
  refine ⟨final, hrun, hwritten.trans (by decide), ?_, ?_⟩
  · rw [hdisplayed, hvscreen]
    decide
  · rw [hcursor (by decide), hvscreen]
    decide

end

end CSE320.Imprimer
