import CSE320.Spooler.Session

namespace CSE320.Spooler

open Lib (ascii)

def shownStatus (id : BitVec 32) : Line → Option JobStatus
  | .jobStatus j => if j.jobid = id then some j.status else none
  | _ => none

-- What the lines show of the job with a number.
def history (id : BitVec 32) (lines : List Line) : List JobStatus :=
  lines.filterMap (shownStatus id)

-- A job is queued. It is printed at most once, and nothing but aborted behind that.
def Life (pending : Bool) (statuses : List JobStatus) : Prop :=
  ∃ queued printed aborted : Nat,
    statuses = List.replicate (queued + 1) .queued ++
      (List.replicate printed .running ++ List.replicate aborted .aborted) ∧
    printed ≤ 1 ∧ if pending then printed = 0 ∧ aborted = 0 else 0 < aborted

theorem history_append (id : BitVec 32) (first second : List Line) :
    history id (first ++ second) = history id first ++ history id second :=
  List.filterMap_append

theorem ofNat_inj {i k : Nat} (hi : i < 2 ^ 32) (hk : k < 2 ^ 32)
    (h : BitVec.ofNat 32 i = BitVec.ofNat 32 k) : i = k := by
  have hnat := congrArg BitVec.toNat h
  rwa [BitVec.toNat_ofNat, BitVec.toNat_ofNat, Nat.mod_eq_of_lt hi, Nat.mod_eq_of_lt hk] at hnat

theorem shownStatus_job {i k : Nat} (hi : i < 2 ^ 32) (hk : k < 2 ^ 32) (r : Order)
    (status : JobStatus) (chosen : Option Nat) :
    shownStatus (BitVec.ofNat 32 k) (.jobStatus (r.job i status chosen)) =
      if i = k then some status else none := by
  show (if BitVec.ofNat 32 i = BitVec.ofNat 32 k then some status else none) = _
  by_cases hik : i = k
  · rw [if_pos hik, if_pos (by rw [hik])]
  · rw [if_neg hik, if_neg (mt (ofNat_inj hi hk) hik)]

-- The lives of all jobs. The number of a later job has not been shown.
def Lived (o : Office) : Prop :=
  ∀ k < 2 ^ 32,
    match o.orders[k]? with
    | none => history (BitVec.ofNat 32 k) o.log = []
    | some r => Life r.pending (history (BitVec.ofNat 32 k) o.log)

section

variable {o : Office}

theorem Life.queued {statuses : List JobStatus} (h : Life true statuses) :
    Life true (statuses ++ [.queued]) := by
  obtain ⟨queued, printed, aborted, rfl, hprinted, rfl, rfl⟩ := h
  refine ⟨queued + 1, 0, 0, ?_, hprinted, rfl, rfl⟩
  simp only [List.replicate_zero, List.append_nil]
  exact List.replicate_succ'.symm

theorem Life.aborted {pending : Bool} {statuses : List JobStatus} (h : Life pending statuses) :
    Life false (statuses ++ [.aborted]) := by
  obtain ⟨queued, printed, aborted, rfl, hprinted, -⟩ := h
  refine ⟨queued, printed, aborted + 1, ?_, hprinted, Nat.succ_pos aborted⟩
  rw [List.replicate_succ' (n := aborted), List.append_assoc, List.append_assoc]

theorem Life.printed {statuses : List JobStatus} (h : Life true statuses) :
    Life false (statuses ++ [.running, .aborted]) := by
  obtain ⟨queued, printed, aborted, rfl, -, rfl, rfl⟩ := h
  exact ⟨queued, 1, 1, by simp, Nat.le_refl 1, Nat.one_pos⟩

-- Lines that show no job.
theorem Lived.lines (h : Lived o) {o' : Office} {lines : List Line}
    (hlines : ∀ id, history id lines = []) (horders : o'.orders = o.orders)
    (hlog : o'.log = o.log ++ lines) : Lived o' := by
  intro k hk
  rw [horders, hlog, history_append, hlines, List.append_nil]
  exact h k hk

-- A job changes, and the lines show only this one.
theorem Lived.changed (h : Lived o) {i : Nat} {r r' : Order} {lines : List Line}
    (hr : o.orders[i]? = some r)
    (hother : ∀ k < 2 ^ 32, i ≠ k → history (BitVec.ofNat 32 k) lines = [])
    (hlife : ∀ statuses, Life r.pending statuses →
      Life r'.pending (statuses ++ history (BitVec.ofNat 32 i) lines)) :
    Lived (Office.note lines { o with orders := o.orders.set i r' }) := by
  intro k hk
  show match (o.orders.set i r')[k]? with
    | none => history (BitVec.ofNat 32 k) (o.log ++ lines) = []
    | some r => Life r.pending (history (BitVec.ofNat 32 k) (o.log ++ lines))
  have hbefore := h k hk
  rw [history_append]
  by_cases hik : i = k
  · subst hik
    rw [List.getElem?_set_self (List.getElem?_eq_some_iff.mp hr).1]
    rw [hr] at hbefore
    exact hlife _ hbefore
  · rw [List.getElem?_set_ne hik, hother k hk hik, List.append_nil]
    exact hbefore

theorem history_singleton {i k : Nat} (hi : i < 2 ^ 32) (hk : k < 2 ^ 32) (r : Order)
    (status : JobStatus) (chosen : Option Nat) :
    history (BitVec.ofNat 32 k) [.jobStatus (r.job i status chosen)] =
      if i = k then [status] else [] := by
  rw [history, List.filterMap_cons, shownStatus_job hi hk]
  by_cases hik : i = k
  · rw [if_pos hik, if_pos hik]
    rfl
  · rw [if_neg hik, if_neg hik]
    rfl

theorem history_hand {i k : Nat} (hi : i < 2 ^ 32) (hk : k < 2 ^ 32) (r : Order) (d : Device)
    (id : Nat) :
    history (BitVec.ofNat 32 k) [.printerStatus (d.printer id true),
      .jobStatus (r.job i .running (some id)), .printerStatus (d.printer id false),
      .jobStatus (r.job i .aborted none)] = if i = k then [.running, .aborted] else [] := by
  have hprinter (p : Printer) (lines : List Line) : history (BitVec.ofNat 32 k)
      (.printerStatus p :: lines) = history (BitVec.ofNat 32 k) lines := rfl
  have hjob (line : Line) (lines : List Line) : history (BitVec.ofNat 32 k) (line :: lines) =
      history (BitVec.ofNat 32 k) [line] ++ history (BitVec.ofNat 32 k) lines :=
    history_append _ [line] lines
  rw [hprinter, hjob, hprinter, history_singleton hi hk, history_singleton hi hk]
  by_cases hik : i = k
  · rw [if_pos hik, if_pos hik, if_pos hik]
    rfl
  · rw [if_neg hik, if_neg hik, if_neg hik]
    rfl

theorem Lived.serve (h : Lived o) (hlength : o.orders.length ≤ 2 ^ 32) (i : Nat) :
    Lived (o.serve i) := by
  rcases Office.serve_cases i o with ⟨r, d, id, hr, hpending, -, hserve⟩ | ⟨-, hserve⟩
  · have hi : i < 2 ^ 32 := lt_of_lt_of_le (List.getElem?_eq_some_iff.mp hr).1 hlength
    rw [hserve]
    refine h.changed hr (fun k hk hik => ?_) fun statuses hlife => ?_
    · rw [history_hand hi hk, if_neg hik]
    · rw [hpending] at hlife
      rw [history_hand hi hi, if_pos rfl]
      exact hlife.printed
  · rw [hserve]
    exact h

theorem Lived.sweep (h : Lived o) (hlength : o.orders.length ≤ 2 ^ 32) : Lived o.sweep := by
  have hplaces (places : List Nat) {o : Office} (h : Lived o)
      (hlength : o.orders.length ≤ 2 ^ 32) : Lived (Lib.sweep Office.serve places o) := by
    induction places generalizing o with
    | nil => exact h
    | cons k places ih =>
        exact ih (h.serve hlength k) ((Office.length_orders_serve k o).trans_le hlength)
  exact hplaces _ h hlength

-- The lines of all jobs.
theorem history_jobs {k : Nat} (orders : List Order) (hlength : orders.length ≤ 2 ^ 32)
    (hk : k < 2 ^ 32) :
    history (BitVec.ofNat 32 k)
        ((orders.mapIdx fun i r => r.job i r.status none).map .jobStatus) =
      (orders[k]?.map Order.status).toList := by
  induction orders using List.reverseRecOn with
  | nil => rfl
  | append_singleton orders r ih =>
      rw [List.length_append, List.length_singleton] at hlength
      rw [List.mapIdx_concat, List.map_append, history_append, ih (by omega), List.map_singleton,
        history_singleton (by omega) hk, List.getElem?_append]
      rcases Nat.lt_trichotomy k orders.length with hless | heq | hmore
      · rw [if_neg (by omega), if_pos hless, List.append_nil]
      · subst heq
        simp
      · rw [if_neg (by omega), if_neg (by omega), List.getElem?_eq_none (by omega),
          List.getElem?_eq_none (by rw [List.length_singleton]; omega)]
        rfl

theorem Lived.list (h : Lived o) (hlength : o.orders.length ≤ 2 ^ 32) :
    Lived (o.note (o.jobs.map .jobStatus)) := by
  intro k hk
  have hbefore := h k hk
  show match o.orders[k]? with
    | none => history (BitVec.ofNat 32 k) (o.log ++ o.jobs.map .jobStatus) = []
    | some r => Life r.pending (history (BitVec.ofNat 32 k) (o.log ++ o.jobs.map .jobStatus))
  rw [history_append, Office.jobs, history_jobs o.orders hlength hk]
  cases hr : o.orders[k]? with
  | none =>
      rw [hr] at hbefore
      exact (List.append_nil _).trans hbefore
  | some r =>
      rw [hr] at hbefore
      simp only [Option.map_some, Option.toList_some] at hbefore ⊢
      unfold Order.status
      cases hpending : r.pending with
      | true =>
          rw [hpending] at hbefore
          exact hbefore.queued
      | false =>
          rw [hpending] at hbefore
          exact hbefore.aborted

theorem Lived.take (h : Lived o) (hlength : o.orders.length < 2 ^ 32) {r : Order}
    (hpending : r.pending = true) : Lived (o.take r) := by
  intro k hk
  have hbefore := h k hk
  show match (o.orders ++ [r])[k]? with
    | none => history (BitVec.ofNat 32 k)
        (o.log ++ [.jobStatus (r.job o.orders.length .queued none)]) = []
    | some r' => Life r'.pending (history (BitVec.ofNat 32 k)
        (o.log ++ [.jobStatus (r.job o.orders.length .queued none)]))
  rw [history_append, history_singleton hlength hk, List.getElem?_append]
  rcases Nat.lt_trichotomy k o.orders.length with hless | heq | hmore
  · rw [if_pos hless, if_neg (by omega), List.append_nil]
    exact hbefore
  · subst heq
    rw [List.getElem?_eq_none (Nat.le_refl _)] at hbefore
    rw [if_neg (Nat.lt_irrefl _), if_pos rfl, Nat.sub_self]
    simp only [List.getElem?_cons_zero, hbefore, hpending, List.nil_append]
    exact ⟨0, 0, 0, rfl, Nat.zero_le 1, rfl, rfl⟩
  · rw [List.getElem?_eq_none (Nat.le_of_lt hmore)] at hbefore
    rw [if_neg (by omega), if_neg (by omega), List.append_nil,
      List.getElem?_eq_none (by rw [List.length_singleton]; omega)]
    exact hbefore

end

-- What a command changes about the jobs, and shows of them.
inductive Changes (o : Office) : Office → Prop
  | none {o' : Office} (lines : List Line) (hlines : ∀ id, history id lines = [])
      (horders : o'.orders = o.orders) (hlog : o'.log = o.log ++ lines) : Changes o o'
  | listed : Changes o (o.note (o.jobs.map .jobStatus))
  | taken (r : Order) (hpending : r.pending = true) : Changes o (o.take r)
  | withdrawn (k : Nat) (r : Order) (hr : o.orders[k]? = some r) : Changes o
      (Office.note [.jobStatus (r.job k .aborted none)]
        { o with orders := o.orders.set k r.closed })

section

variable {o : Office}

theorem Changes.same {o' : Office} (horders : o'.orders = o.orders) (hlog : o'.log = o.log) :
    Changes o o' :=
  .none [] (fun _ => rfl) horders (by rw [hlog, List.append_nil])

theorem changes_ite {p : Prop} [Decidable p] {x y : Office} (hx : Changes o x)
    (hy : Changes o y) : Changes o (if p then x else y) := by
  split
  · exact hx
  · exact hy

theorem changes_one {command : Word → Office → Office} (h : ∀ arg, Changes o (command arg o))
    (args : List Word) : Changes o (o.one command args) := by
  unfold Office.one
  split
  · exact h _
  · exact .same rfl rfl

theorem changes_declareType (type : Word) : Changes o (o.declareType type) :=
  changes_ite (.same rfl rfl) (.same rfl rfl)

theorem changes_submit (file : Word) (names : List Word) : Changes o (o.submit file names) := by
  unfold Office.submit
  split
  · exact .same rfl rfl
  · refine changes_ite ?_ (.same rfl rfl)
    split
    · exact .same rfl rfl
    · exact .taken _ rfl

theorem changes_withdraw (number : Word) : Changes o (o.withdraw number) := by
  unfold Office.withdraw
  cases hcalled : o.called number with
  | none => exact .same rfl rfl
  | some r =>
      refine .withdrawn (strtoi number).toNat r ?_
      unfold Office.called at hcalled
      split at hcalled
      · exact hcalled
      · cases hcalled

theorem changes_turn (enabled : Bool) (name : Word) : Changes o (o.turn enabled name) := by
  unfold Office.turn
  split
  · exact .same rfl rfl
  · split
    · exact .same rfl rfl
    · exact changes_ite (.same rfl rfl) (.none _ (fun _ => rfl) rfl rfl)

theorem changes_printers : Changes o (o.note (o.printers.map .printerStatus)) := by
  refine .none _ (fun id => ?_) rfl rfl
  refine List.filterMap_eq_nil_iff.mpr fun line hline => ?_
  obtain ⟨p, -, rfl⟩ := List.mem_map.mp hline
  rfl

theorem changes_accept (token : Word) (args : List Word) : Changes o (o.accept token args) := by
  unfold Office.accept
  refine changes_ite (changes_one changes_declareType args) ?_
  refine changes_ite ?_ ?_
  · split
    · exact changes_ite (.none _ (fun _ => rfl) rfl rfl) (.same rfl rfl)
    · exact .same rfl rfl
  refine changes_ite ?_ ?_
  · split
    · exact changes_ite (.same rfl rfl) (.same rfl rfl)
    · exact .same rfl rfl
  refine changes_ite (changes_ite changes_printers (.same rfl rfl)) ?_
  refine changes_ite (changes_ite .listed (.same rfl rfl)) ?_
  refine changes_ite ?_ ?_
  · split
    · exact changes_submit _ _
    · exact .same rfl rfl
  refine changes_ite (changes_one changes_withdraw args) ?_
  refine changes_ite (changes_one (changes_turn false) args) ?_
  exact changes_ite (changes_one (changes_turn true) args) (.same rfl rfl)

theorem Changes.length_le {o' : Office} (h : Changes o o') :
    o.orders.length ≤ o'.orders.length := by
  cases h with
  | none lines hlines horders hlog => rw [horders]
  | listed => exact Nat.le_refl _
  | taken r hpending => exact (List.sublist_append_left o.orders [r]).length_le
  | withdrawn k r hr => exact (List.length_set).ge

theorem Lived.changes {o' : Office} (h : Lived o) (hchanges : Changes o o')
    (hlength : o'.orders.length ≤ 2 ^ 32) : Lived o' := by
  have hle := hchanges.length_le.trans hlength
  cases hchanges with
  | none lines hlines horders hlog => exact h.lines hlines horders hlog
  | listed => exact h.list hle
  | taken r hpending =>
      have hmore : (o.orders ++ [r]).length ≤ 2 ^ 32 := hlength
      rw [List.length_append, List.length_singleton] at hmore
      exact h.take (by omega) hpending
  | withdrawn i r hr =>
      have hi : i < 2 ^ 32 := lt_of_lt_of_le (List.getElem?_eq_some_iff.mp hr).1 hle
      refine h.changed hr (fun k hk hik => ?_) fun statuses hlife => ?_
      · rw [history_singleton hi hk, if_neg hik]
      · rw [history_singleton hi hi, if_pos rfl]
        exact hlife.aborted

theorem length_le_step (words : List Word) (o : Office) :
    o.orders.length ≤ (o.step words).orders.length := by
  unfold Office.step
  split
  · exact Nat.le_refl _
  · rw [Office.length_orders_sweep]
    exact (changes_accept _ _).length_le

theorem length_le_run (commands : List (List Word)) (o : Office) :
    o.orders.length ≤ (o.run commands).orders.length := by
  induction commands generalizing o with
  | nil => exact Nat.le_refl _
  | cons words commands ih =>
      unfold Office.run
      split
      · exact Nat.le_refl _
      · exact (length_le_step words o).trans (ih (o.step words))

theorem Lived.step (h : Lived o) (words : List Word)
    (hlength : (o.step words).orders.length ≤ 2 ^ 32) : Lived (o.step words) := by
  cases words with
  | nil => exact h
  | cons token args =>
      have hlength' : (o.accept token args).orders.length ≤ 2 ^ 32 :=
        (Office.length_orders_sweep _).symm.trans_le hlength
      exact (h.changes (changes_accept token args) hlength').sweep hlength'

theorem Lived.run (h : Lived o) (commands : List (List Word))
    (hlength : (o.run commands).orders.length ≤ 2 ^ 32) : Lived (o.run commands) := by
  induction commands generalizing o with
  | nil => exact h
  | cons words commands ih =>
      unfold Office.run at hlength ⊢
      by_cases hquit : words = [ascii "quit"]
      · rw [if_pos hquit]
        exact h
      · rw [if_neg hquit] at hlength ⊢
        have hle := (length_le_run commands (o.step words)).trans hlength
        exact ih (h.step words hle) hlength

end

end CSE320.Spooler
