import CSE320.Spooler.Prompt

namespace CSE320.Spooler

open Lib (ascii)

def printerCommand (declaration : Word × Word) : List Word :=
  [ascii "printer", declaration.1, declaration.2]

-- What a command that declares a printer does behind a number of earlier ones.
def Registers (env : Env) (earlier : Nat) (words : List Word) (s : State) : Prop :=
  ∃ name type s', words = printerCommand (name, type) ∧
    interactiveMode env words s = .ok (true, s') ∧
    if earlier < maxPrinters then
      let p : Printer := ⟨earlier, name, type, false, false⟩
      s'.phead = s.phead ++ [p] ∧ s'.out = s.out ++ [.printerStatus p]
    else
      s'.phead = s.phead ∧ ∃ msg, s'.out = s.out ++ [.error msg]

-- Each command of a session that has a new name and a declared type does this.
def Registered (env : Env) : Nat → List (List Word) → State → Prop
  | _, [], _ => True
  | earlier, words :: commands, s =>
    (declares s words = true → Registers env earlier words s) ∧
      match interactiveMode env words s with
      | .ok (true, s') =>
          Registered env (earlier + if declares s words = true then 1 else 0) commands s'
      | _ => True

theorem interactiveMode_printer (env : Env) {s : State} {name type : Word}
    (hname : searchPrinter s.phead name = none) (htype : type ∈ types s.list.head)
    (hlimit : s.printerId < 31) :
    interactiveMode env (printerCommand (name, type)) s = .ok (true, withPrinter s name type) := by
  have hmax : ¬s.printerId + 1 = maxPrinters := by
    unfold maxPrinters
    omega
  rw [printerCommand, interactiveMode, if_neg (by decide), command, if_neg (by decide),
    if_neg (by decide), if_pos rfl, declarePrinter_eq hname htype, if_neg hmax]
  rfl

theorem registers_of_lt (env : Env) {s : State} {words : List Word} (h : declares s words = true)
    (hlimit : s.printerId < 31) :
    Registers env s.printerId words s := by
  obtain ⟨name, type, rfl, hname, htype⟩ := declares_iff.mp h
  refine ⟨name, type, withPrinter s name type, rfl,
    interactiveMode_printer env hname htype hlimit, ?_⟩
  rw [if_pos (by unfold maxPrinters; omega)]
  exact ⟨rfl, rfl⟩

-- Behind 31 printers, the NULL of the next one is used.
theorem not_registers (env : Env) {s : State} {words : List Word} (h : declares s words = true)
    (hlimit : s.printerId = 31) (earlier : Nat) : ¬Registers env earlier words s := by
  rintro ⟨-, -, s', -, hrun, -⟩
  exact nomatch (interactiveMode_of_limit env h hlimit).symm.trans hrun

-- A session that declares printers among other commands keeps the limit when there are
-- at most 31 of them.
theorem registered_of_session {env : Env} (hbounds : ∀ i, env.inBounds i = true)
    (horiginal : ∀ n, env.forkResult n ≠ .child) (commands : List (List Word)) {s : State}
    (hs : Consistent s) (hprompt : AtPrompt env s) :
    Registered env s.printerId commands s ↔ s.printerId + declared env commands s ≤ 31 := by
  induction commands generalizing s with
  | nil => exact iff_of_true trivial hs.limit
  | cons words commands ih =>
      rw [Registered, declared]
      by_cases hlast : declares s words = true ∧ ¬s.printerId < 31
      · obtain ⟨hdeclares, hmost⟩ := hlast
        have hlimit : s.printerId = 31 := Nat.le_antisymm hs.limit (Nat.not_lt.mp hmost)
        refine iff_of_false
          (fun hright => not_registers env hdeclares hlimit _ (hright.1 hdeclares)) ?_
        rw [if_pos hdeclares, hlimit]
        omega
      · have hlimit (h : declares s words = true) : s.printerId < 31 := by
          by_contra hmost
          exact hlast ⟨h, hmost⟩
        have hwords := interactiveMode_spec hbounds horiginal hs hprompt words hlimit
        rw [and_iff_right fun h => registers_of_lt env h (hlimit h)]
        split at hwords
        · obtain ⟨more, s', hrun, hs', hprompt', hcount⟩ := hwords
          rw [hrun, ← Nat.add_assoc, ← hcount]
          cases more with
          | false => exact iff_of_true trivial hs'.limit
          | true => exact ih hs' hprompt'
        · -- a message leaves its buffer, and there is no other command
          rw [hwords]
          refine iff_of_true trivial ?_
          rw [Nat.add_zero]
          split
          · exact hlimit ‹_›
          · exact hs.limit

-- The commands find at most 31 printers in the list.
theorem registered_from (env : Env) {declarations : List (Word × Word)}
    (hdistinct : (declarations.map Prod.fst).Nodup) {s : State} (hlimit : s.printerId ≤ 31)
    (hnew : ∀ d ∈ declarations, searchPrinter s.phead d.1 = none)
    (htypes : ∀ d ∈ declarations, d.2 ∈ types s.list.head) :
    Registered env s.printerId (declarations.map printerCommand) s ↔
      s.printerId + declarations.length ≤ 31 := by
  induction declarations generalizing s with
  | nil => exact iff_of_true trivial hlimit
  | cons d declarations ih =>
      obtain ⟨name, type⟩ := d
      have hname := hnew (name, type) (List.mem_cons_self ..)
      have htype := htypes (name, type) (List.mem_cons_self ..)
      have hdeclares : declares s (printerCommand (name, type)) = true :=
        declares_iff.mpr ⟨name, type, rfl, hname, htype⟩
      rw [List.map_cons, Registered, List.length_cons]
      rcases Nat.lt_or_eq_of_le hlimit with hless | hmost
      · obtain ⟨hfresh, hrest⟩ := List.nodup_cons.mp hdistinct
        rw [and_iff_right fun h => registers_of_lt env h hless,
          interactiveMode_printer env hname htype hless, if_pos hdeclares,
          Nat.add_comm declarations.length, ← Nat.add_assoc]
        refine ih (s := withPrinter s name type) hrest hless (fun d hd => ?_) fun d hd =>
          htypes d (List.mem_cons_of_mem _ hd)
        have hold := List.findIdx?_eq_none_iff.mp (hnew d (List.mem_cons_of_mem _ hd))
        apply List.findIdx?_eq_none_iff.mpr
        intro p hp
        rcases List.mem_append.mp hp with hp | hp
        · exact hold p hp
        · rw [List.mem_singleton.mp hp]
          apply decide_eq_false
          intro heq
          exact hfresh (List.mem_map.mpr ⟨d, hd, heq.symm⟩)
      · refine iff_of_false (fun hright => not_registers env hdeclares hmost _ (hright.1 hdeclares))
          ?_
        omega

-- Without printers before it, a sequence of at most 31 commands keeps the limit, and no
-- other one.
theorem registered_iff (env : Env) {declarations : List (Word × Word)}
    (hdistinct : (declarations.map Prod.fst).Nodup) {s : State} (hnone : s.phead = [])
    (hstart : s.printerId = 0) (htypes : ∀ d ∈ declarations, d.2 ∈ types s.list.head) :
    Registered env 0 (declarations.map printerCommand) s ↔ declarations.length ≤ 31 := by
  have hfrom := registered_from env hdistinct (by rw [hstart]; exact Nat.zero_le _)
    (fun d _ => by rw [hnone]; rfl) htypes
  rwa [hstart, Nat.zero_add] at hfrom

-- A number of printers for a type that is declared.
def printers (n : Nat) : List (Word × Word) :=
  (List.range n).map fun i => ([BitVec.ofNat 8 (i + 65)], ascii "pdf")

theorem registered_of_two_printers :
    Registered (unbounded fun _ => none) 0 ((printers 2).map printerCommand)
      (addList (ascii "pdf") .start) := by
  refine (registered_iff (unbounded fun _ => none) ?_ ?_ ?_ ?_).mpr ?_
  · decide +kernel
  · decide +kernel
  · decide +kernel
  · decide +kernel
  · decide +kernel

-- The last of 32 commands uses a NULL.
theorem not_registered :
    session (unbounded fun _ => none) ((printers 32).map printerCommand)
      (addList (ascii "pdf") .start) =
        .error .nullPointer ∧
      ¬Registered (unbounded fun _ => none) 0 ((printers 32).map printerCommand)
        (addList (ascii "pdf") .start) := by
  refine ⟨by rfl, fun hright => ?_⟩
  have hdistinct : ((printers 32).map Prod.fst).Nodup := by decide +kernel
  have hnew : ∀ d ∈ printers 32, searchPrinter (addList (ascii "pdf") .start).phead d.1 = none := by
    decide +kernel
  have htypes : ∀ d ∈ printers 32, d.2 ∈ types (addList (ascii "pdf") .start).list.head := by
    decide +kernel
  have hmost :=
    (registered_from (unbounded fun _ => none) hdistinct (Nat.zero_le _) hnew htypes).mp hright
  exact absurd hmost (by decide +kernel)

end CSE320.Spooler
