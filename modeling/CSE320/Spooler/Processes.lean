import CSE320.Spooler.Walk

namespace CSE320.Spooler

open Lib (ascii)

-- The results of fork that a process has seen say where it comes from: a process that
-- has seen a 0 is a forked one.
def Original (env : Env) (s : State) : Prop := ∀ i < s.forks, env.forkResult i ≠ .child

-- Every process that a master forks gets a descriptor from imp_connect_to_printer.
def Connects (env : Env) : Prop :=
  ∀ n, env.forkResult n = .child → env.forkResult (n + 1) = .child → env.connects (n + 2) = true

-- What a new process does ends it, unless the connect of the child fails.
theorem master_ok {env : Env} {s r : State} (h : master env s = .ok r) :
    env.forkResult s.forks = .child ∧ env.connects (s.forks + 1) = false ∧
      r = { s with forks := s.forks + 1 } := by
  unfold master fork at h
  cases hfork : env.forkResult s.forks with
  | failed error =>
      simp only [hfork] at h
      cases h
  | parent =>
      simp only [hfork] at h
      cases h
  | child =>
      simp only [hfork, child] at h
      split at h
      · split at h
        · cases h
        · cases h
      · rename_i hconnect
        exact ⟨rfl, by simpa using hconnect, (Except.ok.inj h).symm⟩

theorem printPrinterStatus_forks {printer : Nat} {s r : State}
    (h : printPrinterStatus printer s = .ok r) :
    r.forks = s.forks := by
  unfold printPrinterStatus at h
  split at h
  · exact nomatch h
  · rw [← Except.ok.inj h]
    rfl

theorem changeJobStatus_forks {job : Nat} {status : JobStatus} {s r : State}
    (h : changeJobStatus job status s = .ok r) :
    r.forks = s.forks := by
  unfold changeJobStatus printJobStatus at h
  simp only at h
  split at h
  · exact nomatch h
  · rw [← Except.ok.inj h]
    rfl

-- fork_conv in a process that it has forked.
theorem forkConv_of_child {env : Env} {again : State → Except Fault State} {j printer : Nat}
    {s r : State} (h : forkConv env again j printer s = .ok r)
    (hchild : env.forkResult s.forks = .child) :
    env.forkResult (s.forks + 1) = .child ∧ env.connects (s.forks + 2) = false := by
  unfold forkConv at h
  obtain ⟨t, ht, h⟩ := Lib.bind_ok h
  have htforks : t.forks = (setBusy printer true s).forks := printPrinterStatus_forks ht
  obtain ⟨u, hu, h⟩ := Lib.bind_ok h
  have huforks : u.forks = s.forks := (changeJobStatus_forks hu).trans htforks
  simp only [fork, huforks, hchild] at h
  obtain ⟨hagain, hconnect, -⟩ := master_ok h
  exact ⟨hagain, hconnect⟩

theorem walk_original {env : Env} (hconnects : Connects env) :
    Walk env env (fun s r => Original env s → Original env r) fun _ => True where
  refl := fun s h => h
  trans := fun s r t hsr hrt h => hrt (hsr h)
  back := fun s r _ _ => trivial
  outcomes := ⟨rfl, rfl, rfl⟩
  other := fun s r _ _ hforks h i hi => h i (hforks ▸ hi)
  type := fun s data _ h => h
  conversion := fun s data1 data2 d1 d2 convProg args _ _ _ h => h
  search := fun s src dest list hlist => ⟨fun h => h, fun _ => hlist, Or.inl hlist⟩
  parent := fun s hparent h i hi => by
    rcases Nat.lt_succ_iff_lt_or_eq.mp hi with hlt | rfl
    · exact h i hlt
    · exact hparent
  child := fun s hfork hagain hconnect => by
    rw [hconnects s.forks hfork hagain] at hconnect
    exact nomatch hconnect

-- A spooler with one printer and one job, behind some calls of fork.
def oneJob (forks : Nat) : State :=
  { State.start with
    phead := [⟨0, [], [], true, false⟩]
    jhead := [⟨0, .queued, [], [], 0, none⟩]
    forks }

-- The child of a master returns when its connection fails.
theorem forkConv_returns {env : Env} {n : Nat} (hfork : env.forkResult n = .child)
    (hagain : env.forkResult (n + 1) = .child) (hconnect : env.connects (n + 2) = false) :
    ∃ r, forkConv env .ok 0 0 (oneJob n) = .ok r := by
  have hmaster (s : State) (hforks : s.forks = n + 1) :
      master env s = .ok { s with forks := n + 2 } := by
    simp only [master, fork, hforks, hagain, child, hconnect]
    rfl
  obtain ⟨line, hline⟩ : ∃ line, printPrinterStatus 0 (setBusy 0 true (oneJob n)) =
      .ok ((setBusy 0 true (oneJob n)).print line) := printPrinterStatus_ok Nat.zero_lt_one
  let t := (setBusy 0 true (oneJob n)).print line
  let u : State := { t with
    jhead := t.jhead.modify 0 fun job => { job with chosenPrinter := some 0 } }
  have hjob : 0 < u.jhead.length := Nat.zero_lt_one
  obtain ⟨line', hstatus⟩ := changeJobStatus_ok hjob .running
  have hfirst : fork env (State.print line' { u with
      jhead := u.jhead.modify 0 (changed .running) }) = (.child, State.print line' { u with
      jhead := u.jhead.modify 0 (changed .running)
      forks := n + 1 }) := by
    have hforks : u.forks = n := rfl
    simp only [fork, State.print, hforks, hfork]
  rw [forkConv, hline, Lib.ok_bind]
  show ∃ r, (changeJobStatus 0 .running u >>= _) = .ok r
  rw [hstatus, Lib.ok_bind, hfirst]
  exact ⟨_, hmaster _ rfl⟩

-- A forked process never returns from fork_conv exactly when every child connects, and
-- then every process that is at a prompt is the original one.
theorem original_of_session (env : Env) :
    ((∀ again j printer s r, forkConv env again j printer s = .ok r →
        env.forkResult s.forks ≠ .child) ↔
        Connects env) ∧
      (Connects env → ∀ commands s, session env commands .start = .ok s → Original env s) := by
  refine ⟨⟨fun h n hfork hagain => ?_, fun hconnects again j printer s r hrun hfork => ?_⟩,
    fun hconnects commands s hrun => ?_⟩
  · -- a spooler with one printer and one job
    by_contra hconnect
    obtain ⟨r, hr⟩ := forkConv_returns hfork hagain (Bool.eq_false_iff.mpr hconnect)
    exact h .ok 0 0 (oneJob n) r hr hfork
  · obtain ⟨hagain, hconnect⟩ := forkConv_of_child hrun hfork
    rw [hconnects s.forks hfork hagain] at hconnect
    cases hconnect
  · have horiginal : Original env .start := fun i hi => absurd hi (Nat.not_lt_zero i)
    exact ((walk_original hconnects).session commands s hrun).1 horiginal

-- A type, an enabled printer for it, and a file to print.
def printing : List (List Word) :=
  [[ascii "type", ascii "txt"], [ascii "printer", ascii "laser", ascii "txt"],
    [ascii "enable", ascii "laser"], [ascii "print", ascii "a.txt"]]

-- The child of the first master, and whether the printer takes its connection.
def firstChild (connects : Bool) : Env where
  forkResult := fun _ => .child
  connects := fun _ => connects
  execs := fun _ => true
  inBounds := fun _ => true

theorem original_of_connected_child :
    Connects (firstChild true) ∧ session (firstChild true) printing .start = .error .replaced ∧
      (∀ again j printer s r, forkConv (firstChild true) again j printer s = .ok r →
        (firstChild true).forkResult s.forks ≠ .child) ∧
      ∀ s, session (firstChild true) printing .start = .ok s → Original (firstChild true) s := by
  have hconnects : Connects (firstChild true) := fun n _ _ => rfl
  obtain ⟨hreturns, hsession⟩ := original_of_session (firstChild true)
  exact ⟨hconnects, by decide +kernel, hreturns.mpr hconnects, hsession hconnects printing⟩

-- A child without a connection is back at the prompt as a second spooler.
theorem second_spooler :
    ∃ s, session (firstChild false) printing .start = .ok s ∧ s.forks = 2 ∧
      (firstChild false).forkResult 0 = .child ∧
      ¬Original (firstChild false) s := by
  have hrun : (session (firstChild false) printing .start).map State.forks = .ok 2 := by
    decide +kernel
  cases hs : session (firstChild false) printing .start with
  | error fault =>
      rw [hs] at hrun
      exact nomatch hrun
  | ok s =>
      rw [hs] at hrun
      have hforks : s.forks = 2 := Except.ok.inj hrun
      exact ⟨s, rfl, hforks, rfl, fun h => h 0 (by omega) rfl⟩

end CSE320.Spooler
