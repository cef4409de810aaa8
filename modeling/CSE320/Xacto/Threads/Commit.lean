import CSE320.Xacto.Threads
import CSE320.Xacto.Transaction.Views

namespace CSE320.Xacto.Threads

open Function (update)

-- What one step of the thread that owns tp does to its own position and to the structures.
inductive Advances (s : Threads) (tp : Ptr) : Pc → Pc → Manager → Prop
  | endWait {t} (ht : s.manager.trans tp = some t) :
      Advances s tp (.waiting []) (.scanning t.depends) s.manager
  | seePending {d rest t} (ht : s.manager.trans d = some t) (hs : t.status = .pending) :
      Advances s tp (.waiting (d :: rest)) (.register d rest) s.manager
  | seeFinal {d rest t} (ht : s.manager.trans d = some t) (hs : t.status ≠ .pending) :
      Advances s tp (.waiting (d :: rest)) (.waiting rest) s.manager
  | register {d rest t} (ht : s.manager.trans d = some t) :
      Advances s tp (.register d rest) (.acquire d rest)
        (s.manager.set d { t with waitcnt := t.waitcnt + 1 })
  | acquire {d rest t} (ht : s.manager.trans d = some t) (hsem : t.sem ≠ 0) :
      Advances s tp (.acquire d rest) (.waiting rest)
        (s.manager.set d { t with sem := t.sem - 1 })
  | endScan : Advances s tp (.scanning []) (.snapshot .commit) s.manager
  | seeAborted {d rest t} (ht : s.manager.trans d = some t) (hs : t.status = .aborted) :
      Advances s tp (.scanning (d :: rest)) .aborting s.manager
  | seeOther {d rest t} (ht : s.manager.trans d = some t) (hs : t.status ≠ .aborted) :
      Advances s tp (.scanning (d :: rest)) (.scanning rest) s.manager
  | abortPending : Advances s tp .aborting .storeAborted s.manager
  | abortOther {t} (ht : s.manager.trans tp = some t) (hs : t.status ≠ .pending) :
      Advances s tp .aborting .abortingFinal s.manager
  | abortAgain {t} (ht : s.manager.trans tp = some t) (hs : t.status ≠ .committed) :
      Advances s tp .abortingFinal (.snapshot .abort) s.manager
  | storeAborted {t} (ht : s.manager.trans tp = some t) :
      Advances s tp .storeAborted (.snapshot .abort)
        (s.manager.set tp { t with status := .aborted })
  | snapshot {v t} (ht : s.manager.trans tp = some t) :
      Advances s tp (.snapshot v) (.posting v t.waitcnt) s.manager
  | endCommit : Advances s tp (.posting .commit 0) .storeCommitted s.manager
  | endAbort : Advances s tp (.posting .abort 0) (.releasing .abort) s.manager
  | post {v n t} (ht : s.manager.trans tp = some t) :
      Advances s tp (.posting v (n + 1)) (.counting v (n + 1))
        (s.manager.set tp { t with sem := t.sem + 1 })
  | count {v n} : Advances s tp (.counting v n) (.posting v (n - 1)) s.manager
  | storeCommitted {t} (ht : s.manager.trans tp = some t) :
      Advances s tp .storeCommitted (.releasing .commit)
        (s.manager.set tp { t with status := .committed })
  | release {v t} (ht : s.manager.trans tp = some t) :
      Advances s tp (.releasing v) (.freeing v)
        (s.manager.set tp { t with refcnt := t.refcnt - 1 })
  | keep {v} : Advances s tp (.freeing v) (.done v) s.manager
  | free {v t m} (ht : s.manager.trans tp = some t) (hzero : t.refcnt = 0)
      (hfree : unlinkFree s.manager tp t = .ok m) : Advances s tp (.freeing v) (.done v) m

-- The same step, apart from the links of the list of all transactions.
inductive Moves (s : Threads) (tp : Ptr) : Pc → Pc → (Ptr → Option Transaction) → Prop
  | endWait {c} (hc : view s.manager tp = some c) :
      Moves s tp (.waiting []) (.scanning c.depends) (view s.manager)
  | seePending {d rest c} (hc : view s.manager d = some c) (hs : c.status = .pending) :
      Moves s tp (.waiting (d :: rest)) (.register d rest) (view s.manager)
  | seeFinal {d rest c} (hc : view s.manager d = some c) (hs : c.status ≠ .pending) :
      Moves s tp (.waiting (d :: rest)) (.waiting rest) (view s.manager)
  | register {d rest c} (hc : view s.manager d = some c) :
      Moves s tp (.register d rest) (.acquire d rest)
        (update (view s.manager) d (some { c with waitcnt := c.waitcnt + 1 }))
  | acquire {d rest c} (hc : view s.manager d = some c) (hsem : c.sem ≠ 0) :
      Moves s tp (.acquire d rest) (.waiting rest)
        (update (view s.manager) d (some { c with sem := c.sem - 1 }))
  | endScan : Moves s tp (.scanning []) (.snapshot .commit) (view s.manager)
  | seeAborted {d rest c} (hc : view s.manager d = some c) (hs : c.status = .aborted) :
      Moves s tp (.scanning (d :: rest)) .aborting (view s.manager)
  | seeOther {d rest c} (hc : view s.manager d = some c) (hs : c.status ≠ .aborted) :
      Moves s tp (.scanning (d :: rest)) (.scanning rest) (view s.manager)
  | abortPending : Moves s tp .aborting .storeAborted (view s.manager)
  | abortOther {c} (hc : view s.manager tp = some c) (hs : c.status ≠ .pending) :
      Moves s tp .aborting .abortingFinal (view s.manager)
  | abortAgain {c} (hc : view s.manager tp = some c) (hs : c.status ≠ .committed) :
      Moves s tp .abortingFinal (.snapshot .abort) (view s.manager)
  | storeAborted {c} (hc : view s.manager tp = some c) :
      Moves s tp .storeAborted (.snapshot .abort)
        (update (view s.manager) tp (some { c with status := .aborted }))
  | snapshot {v c} (hc : view s.manager tp = some c) :
      Moves s tp (.snapshot v) (.posting v c.waitcnt) (view s.manager)
  | endCommit : Moves s tp (.posting .commit 0) .storeCommitted (view s.manager)
  | endAbort : Moves s tp (.posting .abort 0) (.releasing .abort) (view s.manager)
  | post {v n c} (hc : view s.manager tp = some c) :
      Moves s tp (.posting v (n + 1)) (.counting v (n + 1))
        (update (view s.manager) tp (some { c with sem := c.sem + 1 }))
  | count {v n} : Moves s tp (.counting v n) (.posting v (n - 1)) (view s.manager)
  | storeCommitted {c} (hc : view s.manager tp = some c) :
      Moves s tp .storeCommitted (.releasing .commit)
        (update (view s.manager) tp (some { c with status := .committed }))
  | release {v c} (hc : view s.manager tp = some c) :
      Moves s tp (.releasing v) (.freeing v)
        (update (view s.manager) tp (some { c with refcnt := c.refcnt - 1 }))
  | keep {v} : Moves s tp (.freeing v) (.done v) (view s.manager)
  | free {v} : Moves s tp (.freeing v) (.done v) (update (view s.manager) tp none)

theorem goto_pc (s : Threads) (m : Manager) (tp : Ptr) (pc : Pc) :
    (s.goto m tp pc).pc = update s.pc tp pc := by
  funext q
  rw [Function.update_apply]
  rfl

theorem view_of_get {m : Manager} {p : Ptr} {t : Transaction} (h : m.get p = .ok t) :
    view m p = some (core t) := view_of_trans (Manager.get_ok.mp h)

theorem advances_of_advance {s after : Threads} {tp : Ptr} (h : s.advance tp = .ok after) :
    ∃ next, after.pc = update s.pc tp next ∧ Advances s tp (s.pc tp) next after.manager := by
  unfold advance at h
  have hgoto {next : Pc} {m : Manager} (hafter : s.goto m tp next = after)
      (hstep : Advances s tp (s.pc tp) next m) :
      ∃ next, after.pc = update s.pc tp next ∧ Advances s tp (s.pc tp) next after.manager := by
    subst after
    exact ⟨next, goto_pc _ _ _ _, hstep⟩
  cases hpc : s.pc tp with
  | adding => simp [hpc] at h
  | done v => simp [hpc] at h
  | waiting rest =>
      cases rest with
      | nil =>
          simp only [hpc] at h hgoto
          obtain ⟨t, ht, h⟩ := Lib.bind_ok h
          exact hgoto (Except.ok.inj h) (.endWait (Manager.get_ok.mp ht))
      | cons d rest =>
          simp only [hpc] at h hgoto
          obtain ⟨t, ht, h⟩ := Lib.bind_ok h
          apply hgoto (Except.ok.inj h)
          split
          · exact .seePending (Manager.get_ok.mp ht) ‹_›
          · exact .seeFinal (Manager.get_ok.mp ht) ‹_›
  | register d rest =>
      simp only [hpc] at h hgoto
      obtain ⟨manager, hm, h⟩ := Lib.bind_ok h
      obtain ⟨t, ht, rfl⟩ := Manager.modify_ok hm
      exact hgoto (Except.ok.inj h) (.register ht)
  | acquire d rest =>
      simp only [hpc] at h hgoto
      obtain ⟨t, ht, h⟩ := Lib.bind_ok h
      split at h
      · cases h
      · exact hgoto (Except.ok.inj h) (.acquire (Manager.get_ok.mp ht) ‹_›)
  | scanning rest =>
      cases rest with
      | nil =>
          simp only [hpc] at h hgoto
          exact hgoto (Except.ok.inj h) .endScan
      | cons d rest =>
          simp only [hpc] at h hgoto
          obtain ⟨t, ht, h⟩ := Lib.bind_ok h
          apply hgoto (Except.ok.inj h)
          split
          · exact .seeAborted (Manager.get_ok.mp ht) ‹_›
          · exact .seeOther (Manager.get_ok.mp ht) ‹_›
  | aborting =>
      simp only [hpc] at h hgoto
      obtain ⟨t, ht, h⟩ := Lib.bind_ok h
      apply hgoto (Except.ok.inj h)
      split
      · exact .abortPending
      · exact .abortOther (Manager.get_ok.mp ht) ‹_›
  | abortingFinal =>
      simp only [hpc] at h hgoto
      obtain ⟨t, ht, h⟩ := Lib.bind_ok h
      split at h
      · obtain ⟨m, -, h⟩ := Lib.bind_ok h
        cases h
      · exact hgoto (Except.ok.inj h) (.abortAgain (Manager.get_ok.mp ht) ‹_›)
  | storeAborted =>
      simp only [hpc] at h hgoto
      obtain ⟨manager, hm, h⟩ := Lib.bind_ok h
      obtain ⟨t, ht, rfl⟩ := Manager.modify_ok hm
      exact hgoto (Except.ok.inj h) (.storeAborted ht)
  | snapshot v =>
      simp only [hpc] at h hgoto
      obtain ⟨t, ht, h⟩ := Lib.bind_ok h
      exact hgoto (Except.ok.inj h) (.snapshot (Manager.get_ok.mp ht))
  | posting v n =>
      cases n with
      | zero =>
          simp only [hpc] at h hgoto
          apply hgoto (Except.ok.inj h)
          cases v with
          | commit => exact .endCommit
          | abort => exact .endAbort
      | succ n =>
          simp only [hpc] at h hgoto
          obtain ⟨manager, hm, h⟩ := Lib.bind_ok h
          obtain ⟨t, ht, rfl⟩ := Manager.modify_ok hm
          exact hgoto (Except.ok.inj h) (.post ht)
  | counting v n =>
      simp only [hpc] at h hgoto
      exact hgoto (Except.ok.inj h) .count
  | storeCommitted =>
      simp only [hpc] at h hgoto
      obtain ⟨manager, hm, h⟩ := Lib.bind_ok h
      obtain ⟨t, ht, rfl⟩ := Manager.modify_ok hm
      exact hgoto (Except.ok.inj h) (.storeCommitted ht)
  | releasing v =>
      simp only [hpc] at h hgoto
      obtain ⟨manager, hm, h⟩ := Lib.bind_ok h
      obtain ⟨t, ht, rfl⟩ := Manager.modify_ok hm
      exact hgoto (Except.ok.inj h) (.release ht)
  | freeing v =>
      simp only [hpc] at h hgoto
      obtain ⟨t, ht, h⟩ := Lib.bind_ok h
      by_cases hzero : t.refcnt = 0
      · rw [if_pos hzero] at h
        obtain ⟨m, hm, h⟩ := Lib.bind_ok h
        exact hgoto (Except.ok.inj h) (.free (Manager.get_ok.mp ht) hzero hm)
      · rw [if_neg hzero] at h
        exact hgoto (Except.ok.inj h) .keep

theorem Advances.moves {s : Threads} {tp : Ptr} {pc next : Pc} {m : Manager}
    (h : Advances s tp pc next m) :
    m.fresh = s.manager.fresh ∧ Moves s tp pc next (view m) := by
  cases h with
  | @endWait t ht =>
      have hmove : Moves s tp (.waiting []) (.scanning (core t).depends) (view s.manager) :=
        .endWait (view_of_trans ht)
      exact ⟨rfl, hmove⟩
  | seePending ht hs => exact ⟨rfl, .seePending (view_of_trans ht) hs⟩
  | seeFinal ht hs => exact ⟨rfl, .seeFinal (view_of_trans ht) hs⟩
  | register ht => exact ⟨rfl, view_set .. ▸ .register (view_of_trans ht)⟩
  | acquire ht hsem => exact ⟨rfl, view_set .. ▸ .acquire (view_of_trans ht) hsem⟩
  | endScan => exact ⟨rfl, .endScan⟩
  | seeAborted ht hs => exact ⟨rfl, .seeAborted (view_of_trans ht) hs⟩
  | seeOther ht hs => exact ⟨rfl, .seeOther (view_of_trans ht) hs⟩
  | abortPending => exact ⟨rfl, .abortPending⟩
  | abortOther ht hs => exact ⟨rfl, .abortOther (view_of_trans ht) hs⟩
  | abortAgain ht hs => exact ⟨rfl, .abortAgain (view_of_trans ht) hs⟩
  | storeAborted ht => exact ⟨rfl, view_set .. ▸ .storeAborted (view_of_trans ht)⟩
  | @snapshot v t ht =>
      have hmove : Moves s tp (.snapshot v) (.posting v (core t).waitcnt) (view s.manager) :=
        .snapshot (view_of_trans ht)
      exact ⟨rfl, hmove⟩
  | endCommit => exact ⟨rfl, .endCommit⟩
  | endAbort => exact ⟨rfl, .endAbort⟩
  | post ht => exact ⟨rfl, view_set .. ▸ .post (view_of_trans ht)⟩
  | count => exact ⟨rfl, .count⟩
  | storeCommitted ht => exact ⟨rfl, view_set .. ▸ .storeCommitted (view_of_trans ht)⟩
  | release ht => exact ⟨rfl, view_set .. ▸ .release (view_of_trans ht)⟩
  | keep => exact ⟨rfl, .keep⟩
  | free ht hzero hfree =>
      obtain ⟨hfresh, hview⟩ := unlinkFree_ok hfree
      rw [hview]
      exact ⟨hfresh, .free⟩

theorem advance_ok {s after : Threads} {tp : Ptr} (h : s.advance tp = .ok after) :
    ∃ next, after.pc = update s.pc tp next ∧ after.manager.fresh = s.manager.fresh ∧
      Moves s tp (s.pc tp) next (view after.manager) := by
  obtain ⟨next, hpc, hstep⟩ := advances_of_advance h
  exact ⟨next, hpc, hstep.moves⟩

-- The status of a transaction whose owner is at a position.
def status : Pc → TransStatus
  | .snapshot v | .posting v _ | .counting v _ => if v = .abort then .aborted else .pending
  | .releasing v | .freeing v | .done v => v.status
  | _ => .pending

-- The owner has left the second loop of trans_commit and will commit.
def Commits : Pc → Prop
  | .snapshot v | .posting v _ | .counting v _ | .releasing v | .freeing v | .done v => v = .commit
  | .storeCommitted => True
  | _ => False

def Settled (pc : Pc) : Prop := Commits pc ∨ status pc = .aborted

-- What the owner at a position knows about the dependencies that its loops have
-- left behind.
def Passed (pcs : Ptr → Pc) (depends : List Ptr) : Pc → Prop
  | .waiting rest => ∀ d ∈ depends, d ∈ rest ∨ Settled (pcs d)
  | .register e rest | .acquire e rest => ∀ d ∈ depends, d = e ∨ d ∈ rest ∨ Settled (pcs d)
  | .scanning rest => ∀ d ∈ depends, Settled (pcs d) ∧ (d ∈ rest ∨ Commits (pcs d))
  | .abortingFinal => False
  | pc => Commits pc → ∀ d ∈ depends, Commits (pcs d)

structure Safe (s : Threads) : Prop where
  unborn : ∀ p, s.manager.fresh ≤ p → view s.manager p = none ∧ s.pc p = .adding
  status : ∀ p c, view s.manager p = some c → c.status = status (s.pc p)
  posted : ∀ p c, view s.manager p = some c → c.sem ≠ 0 → Settled (s.pc p)
  passed : ∀ p c, view s.manager p = some c → Passed s.pc c.depends (s.pc p)

theorem Moves.commits {s : Threads} {tp : Ptr} {pc next : Pc} {v : Ptr → Option Transaction}
    (h : Moves s tp pc next v) (hc : Commits pc) : Commits next := by
  cases h <;> simp_all [Commits]

theorem Moves.settled {s : Threads} {tp : Ptr} {pc next : Pc} {v : Ptr → Option Transaction}
    (h : Moves s tp pc next v) (hc : Settled pc) : Settled next := by
  rcases hc with hc | hc
  · exact Or.inl (h.commits hc)
  · right
    cases h <;> simp_all [Threads.status, Verdict.status]

theorem Passed.mono {pcs pcs' : Ptr → Pc} {depends : List Ptr} {pc : Pc}
    (hcommits : ∀ q, Commits (pcs q) → Commits (pcs' q))
    (hsettled : ∀ q, Settled (pcs q) → Settled (pcs' q))
    (h : Passed pcs depends pc) : Passed pcs' depends pc := by
  cases pc with
  | waiting rest => exact fun d hd => (h d hd).imp_right (hsettled d)
  | register e rest => exact fun d hd => (h d hd).imp_right (Or.imp_right (hsettled d))
  | acquire e rest => exact fun d hd => (h d hd).imp_right (Or.imp_right (hsettled d))
  | scanning rest => exact fun d hd => (h d hd).imp (hsettled d) (Or.imp_right (hcommits d))
  | abortingFinal => exact h
  | _ => exact fun hc d hd => hcommits d (h hc d hd)

-- A move that changes the entry of one transaction q and keeps its dependencies.
theorem Safe.of_move {s after : Threads} {tp q : Ptr} {next : Pc} {entry : Option Transaction}
    (h : Safe s) (hpc : after.pc = update s.pc tp next)
    (hfresh : after.manager.fresh = s.manager.fresh) (htp : tp < s.manager.fresh)
    (hq : q < s.manager.fresh)
    (hcommits : Commits (s.pc tp) → Commits next) (hsettled : Settled (s.pc tp) → Settled next)
    (hview : view after.manager = update (view s.manager) q entry)
    (hentry : ∀ e, entry = some e → ∃ c, view s.manager q = some c ∧ e.depends = c.depends ∧
      e.status = Threads.status (after.pc q) ∧ (e.sem ≠ 0 → Settled (after.pc q)))
    (hstatus : tp ≠ q → Threads.status next = Threads.status (s.pc tp))
    (hpassed : ∀ c, view s.manager tp = some c → Passed after.pc c.depends next) : Safe after := by
  have hother (p : Ptr) (hp : p ≠ tp) : after.pc p = s.pc p := by
    rw [hpc, Function.update_of_ne hp]
  have hself : after.pc tp = next := by rw [hpc, Function.update_self]
  have hmono {P : Pc → Prop} (hp : P (s.pc tp) → P next) (p : Ptr) (hold : P (s.pc p)) :
      P (after.pc p) := by
    by_cases he : p = tp
    · subst p
      exact hself ▸ hp hold
    · exact hother p he ▸ hold
  -- every entry comes from an entry with the same dependencies
  have horigin (p : Ptr) (e : Transaction) (he : view after.manager p = some e) :
      ∃ c, view s.manager p = some c ∧ e.depends = c.depends ∧
        e.status = Threads.status (after.pc p) ∧ (e.sem ≠ 0 → Settled (after.pc p)) := by
    rw [hview] at he
    by_cases hpq : p = q
    · subst p
      rw [Function.update_self] at he
      exact hentry e he
    · rw [Function.update_of_ne hpq] at he
      refine ⟨e, he, rfl, ?_, fun hsem => hmono hsettled p (h.posted p e he hsem)⟩
      rw [h.status p e he]
      by_cases hpt : p = tp
      · subst p
        rw [hself, hstatus hpq]
      · rw [hother p hpt]
  refine ⟨fun p hp => ?_, fun p e he => ?_, fun p e he => ?_, fun p e he => ?_⟩
  · rw [hfresh] at hp
    have hpq : p ≠ q := fun he => Nat.not_lt.mpr hp (he ▸ hq)
    have hpt : p ≠ tp := fun he => Nat.not_lt.mpr hp (he ▸ htp)
    rw [hview, Function.update_of_ne hpq, hother p hpt]
    exact h.unborn p hp
  · exact (horigin p e he).choose_spec.2.2.1
  · exact (horigin p e he).choose_spec.2.2.2
  · obtain ⟨c, hc, hdepends, -⟩ := horigin p e he
    rw [hdepends]
    by_cases hpt : p = tp
    · subst p
      rw [hself]
      exact hpassed c hc
    · rw [hother p hpt]
      exact (h.passed p c hc).mono (hmono hcommits) (hmono hsettled)

theorem Safe.bounded {s : Threads} (h : Safe s) {p : Ptr} {c : Transaction}
    (hc : view s.manager p = some c) : p < s.manager.fresh := by
  by_contra hle
  rw [(h.unborn p (Nat.not_lt.mp hle)).1] at hc
  cases hc

theorem settled_of_status {pc : Pc} (h : status pc ≠ .pending) : Settled pc := by
  cases hs : status pc with
  | pending => exact absurd hs h
  | aborted => exact Or.inr hs
  | committed =>
      left
      cases pc <;> simp_all [Threads.status, Commits]
      all_goals
        rename_i v
        cases v <;> simp_all [Verdict.status]

theorem advance_safe {s after : Threads} {tp : Ptr} (h : Safe s)
    (hstep : s.advance tp = .ok after) :
    Safe after := by
  obtain ⟨next, hpc, hfresh, hmove⟩ := advance_ok hstep
  have hcommits := hmove.commits
  have hsettled := hmove.settled
  have hself : after.pc tp = next := by rw [hpc, Function.update_self]
  have htp : tp < s.manager.fresh := by
    by_contra hle
    rw [(h.unborn tp (Nat.not_lt.mp hle)).2] at hmove
    cases hmove
  have hmono {P : Pc → Prop} (hp : P (s.pc tp) → P next) (p : Ptr) (hold : P (s.pc p)) :
      P (after.pc p) := by
    by_cases he : p = tp
    · subst p
      exact hself ▸ hp hold
    · rw [hpc, Function.update_of_ne he]
      exact hold
  have hkeep (hst : Threads.status next = Threads.status (s.pc tp)) {q : Ptr} {c : Transaction}
      (hc : view s.manager q = some c) : c.status = Threads.status (after.pc q) := by
    rw [h.status q c hc]
    by_cases he : q = tp
    · subst q
      rw [hself, hst]
    · rw [hpc, Function.update_of_ne he]
  have hread (hv : view after.manager = view s.manager)
      (hst : Threads.status next = Threads.status (s.pc tp))
      (hpassed : ∀ c, view s.manager tp = some c →
        Passed after.pc c.depends next) : Safe after := by
    apply h.of_move hpc hfresh htp htp hcommits hsettled
      (hv.trans (Function.update_eq_self tp _).symm)
      (fun e he => ?_) (fun hne => absurd rfl hne) hpassed
    exact ⟨e, he, rfl, hkeep hst he, fun hsem => hmono hsettled tp (h.posted tp e he hsem)⟩
  have hwrite {q : Ptr} {c c' : Transaction} (hc : view s.manager q = some c)
      (hv : view after.manager = update (view s.manager) q (some c'))
        (hdepends : c'.depends = c.depends)
      (hst : c'.status = Threads.status (after.pc q)) (hsem : c'.sem ≠ 0 → Settled (after.pc q))
      (hne : tp ≠ q → Threads.status next = Threads.status (s.pc tp))
      (hpassed : ∀ c, view s.manager tp = some c →
        Passed after.pc c.depends next) : Safe after := by
    apply h.of_move hpc hfresh htp (h.bounded hc) hcommits hsettled hv (fun e he => ?_) hne hpassed
    cases he
    exact ⟨c, hc, hdepends, hst, hsem⟩
  have hfree (hv : view after.manager = update (view s.manager) tp none)
      (hpassed : ∀ c, view s.manager tp = some c → Passed after.pc c.depends next) : Safe after :=
    h.of_move hpc hfresh htp htp hcommits hsettled hv (fun e he => nomatch he)
      (fun hne => absurd rfl hne) hpassed
  have hold {c : Transaction} (hc : view s.manager tp = some c) :
      Passed after.pc c.depends (s.pc tp) :=
        (h.passed tp c hc).mono (hmono hcommits) (hmono hsettled)
  have hstatus := h.status tp
  have hpassed := h.passed tp
  generalize hv : view after.manager = v at hmove
  generalize s.pc tp = pc at *
  cases hmove with
  | endWait hc =>
      refine hread hv rfl fun c' hc' d hd => ?_
      obtain rfl := Option.some.inj (hc.symm.trans hc')
      have hd' := hold hc d hd
      simp only [List.not_mem_nil, false_or] at hd'
      exact ⟨hd', Or.inl hd⟩
  | seePending hc hs =>
      refine hread hv rfl fun c' hc' e he => ?_
      have he' := hold hc' e he
      rw [List.mem_cons, or_assoc] at he'
      exact he'
  | @seeFinal d rest c hc hs =>
      refine hread hv rfl fun c' hc' e he => ?_
      have he' := hold hc' e he
      rw [List.mem_cons, or_assoc] at he'
      rcases he' with rfl | he'
      · rw [h.status e c hc] at hs
        exact Or.inr (hmono hsettled e (settled_of_status hs))
      · exact he'
  | register hc =>
      have hst := hkeep rfl hc
      exact hwrite hc hv rfl hst (fun hsem => hmono hsettled _ (h.posted _ _ hc hsem))
        (fun _ => rfl) fun c' hc' => hold hc'
  | @acquire d rest c hc hsem =>
      have hd : Settled (after.pc d) := hmono hsettled d (h.posted d c hc hsem)
      have hst := hkeep rfl hc
      refine hwrite hc hv rfl hst (fun _ => hd) (fun _ => rfl) fun c' hc' e he => ?_
      rcases hold hc' e he with rfl | he'
      · exact Or.inr hd
      · exact he'
  | endScan =>
      refine hread hv rfl fun c' hc' _ d hd => ?_
      have hd' := (hold hc' d hd).2
      simp only [List.not_mem_nil, false_or] at hd'
      exact hd'
  | seeAborted hc hs => exact hread hv rfl fun c' hc' hcommit => absurd hcommit id
  | @seeOther d rest c hc hs =>
      refine hread hv rfl fun c' hc' e he => ⟨(hold hc' e he).1, ?_⟩
      obtain ⟨hset, hrest⟩ := hpassed c' hc' e he
      rw [List.mem_cons, or_assoc] at hrest
      rcases hrest with rfl | hrest | hcommit
      · rw [h.status e c hc] at hs
        exact Or.inr (hmono hcommits e (hset.resolve_right hs))
      · exact Or.inl hrest
      · exact Or.inr (hmono hcommits e hcommit)
  | abortPending => exact hread hv rfl fun c' hc' hcommit => absurd hcommit id
  | abortOther hc hs => exact absurd (hstatus _ hc) hs
  | abortAgain hc hs => exact absurd (hpassed _ hc) id
  | storeAborted hc =>
      refine hwrite hc hv rfl ?_ ?_ (fun hne => absurd rfl hne) fun c' hc' hcommit =>
        absurd hcommit (by simp [Commits])
      · rw [hself]
        rfl
      · rw [hself]
        exact fun _ => Or.inr rfl
  | snapshot hc => exact hread hv rfl fun c' hc' => hold hc'
  | endCommit => exact hread hv rfl fun c' hc' _ => hold hc' rfl
  | endAbort => exact hread hv rfl fun c' hc' => hold hc'
  | @post v n c hc =>
      have hst := hkeep rfl hc
      refine hwrite hc hv rfl hst (fun _ => ?_) (fun hne => absurd rfl hne) fun c' hc' => hold hc'
      rw [hself]
      cases v with
      | commit => exact Or.inl rfl
      | abort => exact Or.inr rfl
  | count => exact hread hv rfl fun c' hc' => hold hc'
  | storeCommitted hc =>
      refine hwrite hc hv rfl ?_ ?_ (fun hne => absurd rfl hne) fun c' hc' _ => hold hc' trivial
      · rw [hself]
        rfl
      · rw [hself]
        exact fun _ => Or.inl rfl
  | release hc =>
      have hst := hkeep rfl hc
      exact hwrite hc hv rfl hst (fun hsem => hmono hsettled _ (h.posted _ _ hc hsem))
        (fun _ => rfl) fun c' hc' => hold hc'
  | keep => exact hread hv rfl fun c' hc' => hold hc'
  | free => exact hfree hv fun c' hc' => hold hc'

-- A step of an owner that is not inside a call: the dependencies of its own
-- transaction may change, and new transactions may appear.
theorem Safe.of_entries {s after : Threads} (h : Safe s) (hpc : after.pc = s.pc)
    (hfresh : s.manager.fresh ≤ after.manager.fresh)
    (hunborn : ∀ p, after.manager.fresh ≤ p → view after.manager p = none)
    (hentry : ∀ p e, view after.manager p = some e →
      (s.pc p = .adding ∧ e.status = .pending ∧ e.sem = 0) ∨
      ∃ c, view s.manager p = some c ∧ e.status = c.status ∧ e.sem = c.sem ∧
        (e.depends = c.depends ∨ s.pc p = .adding)) : Safe after := by
  refine ⟨fun p hp => ⟨hunborn p hp, ?_⟩, fun p e he => ?_, fun p e he hsem => ?_, fun p e he => ?_⟩
    <;>
    rw [hpc]
  · exact (h.unborn p (Nat.le_trans hfresh hp)).2
  · rcases hentry p e he with ⟨hadding, hst, -⟩ | ⟨c, hc, hst, -⟩
    · rw [hadding, hst]
      rfl
    · rw [hst, h.status p c hc]
  · rcases hentry p e he with ⟨-, -, hzero⟩ | ⟨c, hc, -, hsame, -⟩
    · exact absurd hzero hsem
    · exact h.posted p c hc (hsame ▸ hsem)
  · rcases hentry p e he with ⟨hadding, -⟩ | ⟨c, hc, -, -, hdepends | hadding⟩
    · rw [hadding]
      exact fun hcommit => absurd hcommit id
    · rw [hdepends]
      exact h.passed p c hc
    · rw [hadding]
      exact fun hcommit => absurd hcommit id

-- The owner starts its call.
theorem Safe.of_call {s : Threads} {tp : Ptr} {next : Pc} {t : Transaction} (h : Safe s)
    (hadding : s.pc tp = .adding) (ht : s.manager.get tp = .ok t)
    (hstatus : Threads.status next = .pending)
    (hpassed : ∀ pcs, Passed pcs t.depends next) : Safe (s.goto s.manager tp next) := by
  have hc := view_of_get ht
  have htp := h.bounded hc
  have hnot : ¬Settled (s.pc tp) := by
    rw [hadding]
    simp [Settled, Commits, Threads.status]
  apply h.of_move (goto_pc _ _ _ _) rfl htp htp (fun hcommit => absurd (Or.inl hcommit) hnot)
    (fun hset => absurd hset hnot) (Function.update_eq_self tp _).symm (fun e he => ?_)
    (fun hne => absurd rfl hne) (fun c hc' => ?_)
  · refine ⟨e, he, rfl, ?_, fun hsem => absurd (h.posted tp e he hsem) hnot⟩
    rw [goto_pc, Function.update_self, hstatus, h.status tp e he, hadding]
    rfl
  · obtain rfl := Option.some.inj (hc.symm.trans hc')
    exact hpassed _

theorem step_safe {s after : Threads} {a : Action} (h : Safe s) (howned : s.Owned a)
    (hstep : s.step a = .ok after) : Safe after := by
  cases a with
  | advance tp => exact advance_safe h hstep
  | create =>
      obtain ⟨⟨p, manager⟩, hcall, hstep⟩ := Lib.bind_ok hstep
      cases hstep
      obtain ⟨rfl, hf, hv⟩ := transCreate_ok hcall
      refine h.of_entries rfl (hf ▸ Nat.le_succ _) (fun p hp => ?_) (fun p e he => ?_)
      · simp only [hf] at hp
        rw [hv, Function.update_of_ne (Nat.ne_of_gt hp)]
        exact (h.unborn p (Nat.le_of_succ_le hp)).1
      · rw [hv] at he
        by_cases hp : p = s.manager.fresh
        · subst p
          rw [Function.update_self] at he
          cases he
          exact Or.inl ⟨(h.unborn _ (Nat.le_refl _)).2, rfl, rfl⟩
        · rw [Function.update_of_ne hp] at he
          exact Or.inr ⟨e, he, rfl, rfl, Or.inl rfl⟩
  | addDependency tp dtp =>
      obtain ⟨manager, hcall, hstep⟩ := Lib.bind_ok hstep
      cases hstep
      have hadding : s.pc tp = .adding := howned
      obtain ⟨hf, hv | ⟨c, d, hc, hd, hne, hv⟩⟩ := transAddDependency_ok hcall
      · refine h.of_entries rfl (Nat.le_of_eq hf.symm) (fun p hp => ?_) (fun p e he => ?_)
        · rw [hv]
          exact (h.unborn p (hf ▸ hp)).1
        · rw [hv] at he
          exact Or.inr ⟨e, he, rfl, rfl, Or.inl rfl⟩
      · refine h.of_entries rfl (Nat.le_of_eq hf.symm) (fun p hp => ?_) (fun p e he => ?_)
        · have hle : s.manager.fresh ≤ p := hf ▸ hp
          have hptp : p ≠ tp := Nat.ne_of_gt (Nat.lt_of_lt_of_le (h.bounded hc) hle)
          have hpd : p ≠ dtp := Nat.ne_of_gt (Nat.lt_of_lt_of_le (h.bounded hd) hle)
          rw [hv, Function.update_of_ne hpd, Function.update_of_ne hptp]
          exact (h.unborn p hle).1
        · rw [hv] at he
          by_cases hpd : p = dtp
          · subst p
            rw [Function.update_self] at he
            cases he
            exact Or.inr ⟨d, hd, rfl, rfl, Or.inl rfl⟩
          · rw [Function.update_of_ne hpd] at he
            by_cases hptp : p = tp
            · subst p
              rw [Function.update_self] at he
              cases he
              exact Or.inr ⟨c, hc, rfl, rfl, Or.inr hadding⟩
            · rw [Function.update_of_ne hptp] at he
              exact Or.inr ⟨e, he, rfl, rfl, Or.inl rfl⟩
  | commit tp =>
      obtain ⟨t, ht, hstep⟩ := Lib.bind_ok hstep
      cases hstep
      exact h.of_call howned ht rfl fun _ d hd => Or.inl hd
  | abort tp =>
      obtain ⟨t, ht, hstep⟩ := Lib.bind_ok hstep
      cases hstep
      exact h.of_call howned ht rfl fun _ hcommit => absurd hcommit id

theorem safe_start : Safe start := by
  have hinit (p : Ptr) (c : Transaction) (hc : view transInit p = some c) :
      p = transList ∧ c.status = .pending ∧ c.sem = 0 := by
    obtain ⟨t, ht, rfl⟩ := trans_of_view hc
    simp only [transInit] at ht
    split at ht
    · cases ht
      exact ⟨‹_›, rfl, rfl⟩
    · cases ht
  refine ⟨fun p hp => ⟨?_, rfl⟩, fun p c hc => (hinit p c hc).2.1,
    fun p c hc hsem => absurd (hinit p c hc).2.2 hsem, fun p c hc hcommit => absurd hcommit id⟩
  cases hc : view start.manager p with
  | none => rfl
  | some c =>
      obtain ⟨rfl, -⟩ := hinit p c hc
      exact absurd hp (by decide)

theorem run_safe {s : Threads} {actions : List Action}
    (hrun : Lib.Steps step Owned start actions s) : Safe s :=
  hrun.invariant Safe (fun _ _ _ h howned hstep => step_safe h howned hstep) safe_start

theorem Passed.commits {pcs : Ptr → Pc} {depends : List Ptr} {pc : Pc} (h : Passed pcs depends pc)
    (hc : Commits pc) : ∀ d ∈ depends, Commits (pcs d) := by
  cases pc <;> first | exact h hc | exact absurd hc id

theorem step_commits {s after : Threads} {a : Action} {q : Ptr} (howned : s.Owned a)
    (hstep : s.step a = .ok after) (hq : Commits (s.pc q)) : Commits (after.pc q) := by
  have hcall {tp : Ptr} {next : Pc} (hadding : s.pc tp = .adding) :
      Commits ((s.goto s.manager tp next).pc q) := by
    have hne : q ≠ tp := by
      rintro rfl
      rw [hadding] at hq
      exact hq
    rw [goto_pc, Function.update_of_ne hne]
    exact hq
  cases a with
  | create =>
      obtain ⟨_, -, hstep⟩ := Lib.bind_ok hstep
      cases hstep
      exact hq
  | addDependency tp dtp =>
      obtain ⟨_, -, hstep⟩ := Lib.bind_ok hstep
      cases hstep
      exact hq
  | commit tp =>
      obtain ⟨_, -, hstep⟩ := Lib.bind_ok hstep
      cases hstep
      exact hcall howned
  | abort tp =>
      obtain ⟨_, -, hstep⟩ := Lib.bind_ok hstep
      cases hstep
      exact hcall howned
  | advance tp =>
      obtain ⟨next, hpc, -, hmove⟩ := advance_ok hstep
      rw [hpc]
      by_cases he : q = tp
      · subst q
        rw [Function.update_self]
        exact hmove.commits hq
      · rw [Function.update_of_ne he]
        exact hq

theorem commits_of_committed {pc : Pc} (h : status pc = .committed) : Commits pc := by
  have hne : status pc ≠ .pending := by
    rw [h]
    decide
  rcases settled_of_status hne with hc | ha
  · exact hc
  · rw [h] at ha
    cases ha

theorem not_aborted_of_commits {pc : Pc} (h : Commits pc) : status pc ≠ .aborted := by
  cases pc <;> simp_all [Commits, Threads.status, Verdict.status]

-- A transaction in the dependency set of a committed one is not aborted, in the
-- same state and in every later one.
theorem dependency_not_aborted {earlier later : List Action} {s after : Threads} {p d : Ptr}
    {t u : Transaction} (hearlier : Lib.Steps step Owned start earlier s)
    (hlater : Lib.Steps step Owned s later after) (ht : s.manager.trans p = some t)
    (hcommitted : t.status = .committed) (hd : d ∈ t.depends)
    (hu : after.manager.trans d = some u) :
    u.status ≠ .aborted := by
  have hsafe := run_safe hearlier
  have hview := view_of_trans ht
  have hp : Commits (s.pc p) :=
    commits_of_committed ((hsafe.status p _ hview).symm.trans hcommitted)
  have hcommits : Commits (s.pc d) := (hsafe.passed p _ hview).commits hp d hd
  have hlast : Commits (after.pc d) := hlater.invariant (fun s => Commits (s.pc d))
    (fun _ _ _ h howned hstep => step_commits howned hstep h) hcommits
  have hstatus := (run_safe (hearlier.append hlater)).status d _ (view_of_trans hu)
  have hcore : (core u).status = u.status := rfl
  rw [← hcore, hstatus]
  exact not_aborted_of_commits hlast

-- Two transactions commit one after the other, and the second depends on the
-- first.
theorem dependency_not_aborted_of_two_commits :
    ∃ (actions : List Action) (s : Threads) (t u : Transaction),
      Lib.Steps step Owned start actions s ∧ s.manager.trans 2 = some t ∧ t.status = .committed ∧
      1 ∈ t.depends ∧ s.manager.trans 1 = some u ∧ u.status ≠ .aborted := by
  let actions : List Action := [.create, .create, .addDependency 2 1, .commit 1] ++
    List.replicate 7 (.advance 1) ++ [.commit 2] ++ List.replicate 7 (.advance 2)
  obtain ⟨s, t, u, hrun, ht, hst, hd, hu⟩ : ∃ (s : Threads) (t u : Transaction),
      Lib.checkedRun step Owned start actions = some s ∧ s.manager.trans 2 = some t ∧
      t.status = .committed ∧ 1 ∈ t.depends ∧ s.manager.trans 1 = some u :=
    ⟨_, _, _, rfl, rfl, rfl, by decide, rfl⟩
  have hsteps := Lib.Steps.of_checkedRun hrun
  exact ⟨actions, s, t, u, hsteps, ht, hst, hd, hu,
    dependency_not_aborted hsteps (.nil s) ht hst hd hu⟩

end CSE320.Xacto.Threads
