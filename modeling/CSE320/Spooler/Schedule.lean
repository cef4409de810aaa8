import CSE320.Spooler.Main
import CSE320.Spooler.Path
import Mathlib.Data.List.Forall2

namespace CSE320.Spooler

open Lib (ascii)

-- No enabled printer of the job can be reached from its type.
def Waits (env : Env) (s : State) (job : Job) : Prop :=
  ∀ p ∈ s.phead, p.enabled = true → eligible job p.id = true →
    NoPath env.inBounds s.list job.fileType p.type

-- What the user finds at a prompt.
structure AtPrompt (env : Env) (s : State) : Prop where
  idle : ∀ p ∈ s.phead, p.busy = false
  settled : ∀ j ∈ s.jhead, j.status = .queued ∨ j.status = .completed ∨ j.status = .aborted
  waiting : ∀ j ∈ s.jhead, j.status = .queued → Waits env s j

-- Printers, jobs and conversions have declared types, and a printer's identifier is
-- its place in the list.
structure Consistent (s : State) : Prop where
  queue : s.list.queue = []
  closed : Closed s.list.head
  printerId : s.printerId = s.phead.length
  limit : s.printerId ≤ 31
  ids : ∀ (i : Nat) (p : Printer), s.phead[i]? = some p → p.id = i
  printerTypes : ∀ p ∈ s.phead, p.type ∈ types s.list.head
  jobTypes : ∀ j ∈ s.jhead, j.fileType ∈ types s.list.head

-- A search changes only the marks and the result, and is noted.
structure Searched (s s' : State) : Prop where
  queue : s'.list.queue = []
  graph : resetVisited s'.list.head = resetVisited s.list.head
  rest : s' = { s with list := s'.list, searches := s'.searches }

section

variable {env : Env} (hbounds : ∀ i, env.inBounds i = true)

include hbounds

theorem waits_of_graph {s s' : State} {job : Job} (hqueue : s.list.queue = [])
    (hqueue' : s'.list.queue = []) (hgraph : resetVisited s'.list.head = resetVisited s.list.head)
    (hprinters : s'.phead = s.phead) (h : Waits env s job) : Waits env s' job := by
  intro p hp henabled heligible
  rw [hprinters] at hp
  exact noPath_of_graph hbounds hqueue hqueue' hgraph (h p hp henabled heligible)

-- The printers with smaller identifiers have been tried.
theorem findBfsLoop_spec (job : Job) (left i : Nat) {s : State} (hqueue : s.list.queue = [])
    (hids : ∀ (i : Nat) (p : Printer), s.phead[i]? = some p → p.id = i)
    (hidle : ∀ p ∈ s.phead, p.busy = false) :
    ∃ printer s', findBfsLoop env job left i s = .ok (printer, s') ∧ Searched s s' ∧
      (∀ k, printer = some k → k < s.phead.length) ∧
      (printer = none → ∀ p ∈ s.phead, i ≤ p.id → p.id < i + left → p.enabled = true →
        eligible job p.id = true →
        NoPath env.inBounds s.list job.fileType p.type) := by
  induction left generalizing i s with
  | zero => exact ⟨none, s, rfl, ⟨hqueue, rfl, rfl⟩, by simp, fun _ p _ hle hlt => by omega⟩
  | succ left ih =>
      -- the rest of the loop, when the printer with this identifier has been tried
      have hrest {t : State} (ht : Searched s t) (htried : ∀ p ∈ s.phead, p.id = i →
          p.enabled = true →
          eligible job p.id = true → NoPath env.inBounds s.list job.fileType p.type) :
          ∃ printer s', findBfsLoop env job left (i + 1) t = .ok (printer, s') ∧ Searched s s' ∧
            (∀ k, printer = some k → k < s.phead.length) ∧
            (printer = none → ∀ p ∈ s.phead, i ≤ p.id → p.id < i + (left + 1) → p.enabled = true →
              eligible job p.id = true → NoPath env.inBounds s.list job.fileType p.type) := by
        have hphead : t.phead = s.phead := by rw [ht.rest]
        obtain ⟨printer, s', hloop, hsearched, hvalid, hnone⟩ :=
          ih (i + 1) ht.queue (hphead ▸ hids) (hphead ▸ hidle)
        refine ⟨printer, s', hloop, ⟨hsearched.queue, hsearched.graph.trans ht.graph, ?_⟩,
          hphead ▸ hvalid, ?_⟩
        · exact hsearched.rest.trans (by rw [ht.rest])
        · intro hprinter p hp hle hlt henabled heligible
          by_cases heq : p.id = i
          · exact htried p hp heq henabled heligible
          · exact noPath_of_graph hbounds ht.queue hqueue ht.graph.symm
              (hnone hprinter p (hphead ▸ hp) (by omega) (by omega) henabled heligible)
      have hself : Searched s s := ⟨hqueue, rfl, rfl⟩
      rw [findBfsLoop]
      by_cases heligible : eligible job i = true
      · rw [if_pos heligible]
        cases hget : getPrinterById s.phead i with
        | none =>
            refine hrest hself fun p hp hid => ?_
            have hnot := List.findIdx?_eq_none_iff.mp hget p hp
            exact absurd hid (by simpa using hnot)
        | some k =>
            obtain ⟨hk, hid, -⟩ := List.findIdx?_eq_some_iff_getElem.mp hget
            have hprinter := List.getElem?_eq_getElem hk
            have hplace : k = i := (hids k _ hprinter).symm.trans (by simpa using hid)
            -- no other printer has this identifier
            have hunique (p : Printer) (hp : p ∈ s.phead) (hpid : p.id = i) : p = s.phead[k] := by
              obtain ⟨m, hm⟩ := List.mem_iff_getElem?.mp hp
              have hsame : m = k := by rw [← hids m p hm, hpid, hplace]
              rw [hsame, hprinter] at hm
              exact (Option.some.inj hm).symm
            have hbusy := hidle _ (List.getElem_mem hk)
            simp only [hprinter]
            generalize s.phead[k] = p at hprinter hunique hbusy
            by_cases henabled : p.enabled = true
            · obtain ⟨list, hbfs, hqueue', hgraph, -⟩ := bfs_spec hbounds job.fileType p.type hqueue
              simp only [henabled, hbusy, Bool.not_false, Bool.and_self, if_true, hbfs, Lib.ok_bind]
              have hsearched : Searched s { s with list, searches :=
                s.searches ++ [⟨job.fileType, p.type, s.list⟩] } :=
                ⟨hqueue', hgraph, rfl⟩
              by_cases hresult : list.result = []
              · rw [if_neg (not_not.mpr hresult)]
                refine hrest hsearched fun q hq hqid _ _ => ?_
                rw [hunique q hq hqid]
                exact ⟨list, hbfs, hresult⟩
              · rw [if_pos hresult]
                refine ⟨some k, _, rfl, hsearched, fun m hm => ?_, fun hnone => nomatch hnone⟩
                obtain rfl := Option.some.inj hm
                exact hk
            · simp only [henabled, Bool.false_and, Bool.false_eq_true, if_false]
              refine hrest hself fun q hq hqid hqenabled => ?_
              rw [hunique q hq hqid] at hqenabled
              exact absurd hqenabled henabled
      · rw [if_neg heligible]
        refine hrest hself fun p hp hid _ helig => ?_
        rw [hid] at helig
        exact absurd helig heligible

theorem findBfs_spec (job : Job) {s : State} (h : Consistent s)
    (hidle : ∀ p ∈ s.phead, p.busy = false) :
    ∃ printer s', findBfs env job s = .ok (printer, s') ∧ Searched s s' ∧
      (∀ k, printer = some k → k < s.phead.length) ∧ (printer = none → Waits env s job) := by
  obtain ⟨printer, s', hloop, hsearched, hvalid, hnone⟩ :=
    findBfsLoop_spec hbounds job 32 0 h.queue h.ids hidle
  refine ⟨printer, s', hloop, hsearched, hvalid, fun hprinter p hp => ?_⟩
  obtain ⟨i, hi⟩ := List.mem_iff_getElem?.mp hp
  obtain ⟨hlt, -⟩ := List.getElem?_eq_some_iff.mp hi
  have hid := h.ids i p hi
  have hcount := h.printerId
  have hlimit := h.limit
  exact hnone hprinter p hp (Nat.zero_le _) (by omega)

end

def abort (job : Job) : Job := { job with status := .aborted, chosenPrinter := none }

theorem printPrinterStatus_ok {printer : Nat} {s : State} (h : printer < s.phead.length) :
    ∃ line, printPrinterStatus printer s = .ok (s.print line) := by
  rw [printPrinterStatus, List.getElem?_eq_getElem h]
  exact ⟨_, rfl⟩

def changed (status : JobStatus) (j : Job) : Job :=
  if status = .queued ∨ status = .completed ∨
    status = .aborted then { j with status, chosenPrinter := none }
  else { j with status }

theorem changeJobStatus_ok {job : Nat} {s : State} (h : job < s.jhead.length) (status : JobStatus) :
    ∃ line, changeJobStatus job status s =
      .ok (State.print line { s with jhead := s.jhead.modify job (changed status) }) := by
  have hlt : job < (s.jhead.modify job (changed status)).length := by simpa using h
  show ∃ line, printJobStatus job { s with jhead := s.jhead.modify job (changed status) } = _
  rw [printJobStatus, List.getElem?_eq_getElem hlt]
  exact ⟨_, rfl⟩

-- The printer is free again and the job is aborted when process_print is called.
theorem forkConv_spec {env : Env} (horiginal : ∀ n, env.forkResult n ≠ .child)
    (again : State → Except Fault State) {j printer : Nat} {s : State} {job : Job}
    (hjob : s.jhead[j]? = some job) (hprinter : printer < s.phead.length)
    (hidle : ∀ p ∈ s.phead, p.busy = false) :
    ∃ s', forkConv env again j printer s = again s' ∧ s'.list = s.list ∧ s'.phead = s.phead ∧
      s'.printerId = s.printerId ∧ s'.jhead = s.jhead.set j (abort job) := by
  obtain ⟨p, hp⟩ : ∃ p, s.phead[printer]? = some p := ⟨_, List.getElem?_eq_getElem hprinter⟩
  have hfree : { p with busy := false } = p := by rw [← hidle p (List.mem_of_getElem? hp)]
  have hphead : (s.phead.modify printer fun p => { p with busy := true }).modify printer
      (fun p => { p with busy := false }) = s.phead := by
    refine List.ext_getElem? fun i => ?_
    by_cases hi : printer = i
    · subst hi
      simp [hp, hfree]
    · simp [hi]
  have hjhead (first second third : Job → Job) (habort : third (second (first job)) = abort job) :
      ((s.jhead.modify j first).modify j second).modify j third = s.jhead.set j (abort job) := by
    refine List.ext_getElem? fun i => ?_
    by_cases hi : j = i
    · subst hi
      have hlt : j < s.jhead.length := (List.getElem?_eq_some_iff.mp hjob).1
      simp [hjob, habort, List.getElem?_set_self hlt]
    · simp [hi]
  unfold forkConv printPrinterStatus changeJobStatus printJobStatus fork
  cases hfork : env.forkResult s.forks with
  | child => exact absurd hfork (horiginal s.forks)
  | parent =>
      simp only [setBusy, State.print, List.getElem?_modify, hp, hjob, hfork, Lib.ok_bind, if_true,
        Option.map_eq_map, Option.map_some]
      refine ⟨_, rfl, ?_⟩
      exact ⟨rfl, hphead, rfl, hjhead _ _ _ rfl⟩
  | failed error =>
      simp only [setBusy, State.print, errorMsgNote, List.getElem?_modify, hp, hjob, hfork,
        Lib.ok_bind, if_true, Option.map_eq_map, Option.map_some]
      refine ⟨_, rfl, ?_⟩
      exact ⟨rfl, hphead, rfl, hjhead _ _ _ rfl⟩

-- A job that was queued may be aborted.
def JobSettles (j j' : Job) : Prop := j' = j ∨ j.status = .queued ∧ j' = abort j

theorem JobSettles.trans {j j' j'' : Job} (h : JobSettles j j') (h' : JobSettles j' j'') :
    JobSettles j j'' := by
  rcases h with rfl | ⟨hqueued, rfl⟩
  · exact h'
  · rcases h' with rfl | ⟨haborted, -⟩
    · exact Or.inr ⟨hqueued, rfl⟩
    · exact absurd haborted (by decide : JobStatus.aborted ≠ .queued)

def queuedJobs (jobs : List Job) : Nat := jobs.countP fun j => j.status = .queued

-- Nothing else changes but the marks, the result and the output.
structure Settles (s s' : State) : Prop where
  queue : s'.list.queue = []
  graph : resetVisited s'.list.head = resetVisited s.list.head
  phead : s'.phead = s.phead
  printerId : s'.printerId = s.printerId
  jobs : List.Forall₂ JobSettles s.jhead s'.jhead

theorem Searched.settles {s s' : State} (h : Searched s s') : Settles s s' := by
  refine ⟨h.queue, h.graph, ?_, ?_, ?_⟩
  · rw [h.rest]
  · rw [h.rest]
  · rw [h.rest]
    exact List.forall₂_same.mpr fun j _ => Or.inl rfl

theorem Settles.trans {s s' s'' : State} (h : Settles s s') (h' : Settles s' s'') :
    Settles s s'' := by
  refine ⟨h'.queue, h'.graph.trans h.graph, h'.phead.trans h.phead,
    h'.printerId.trans h.printerId, ?_⟩
  obtain ⟨hlength, hfirst⟩ := List.forall₂_iff_get.mp h.jobs
  obtain ⟨hlength', hsecond⟩ := List.forall₂_iff_get.mp h'.jobs
  refine List.forall₂_iff_get.mpr ⟨hlength.trans hlength', fun i hi hi'' => ?_⟩
  exact (hfirst i hi (hlength ▸ hi)).trans (hsecond i (hlength ▸ hi) hi'')

theorem queuedJobs_le {jobs jobs' : List Job} (h : List.Forall₂ JobSettles jobs jobs') :
    queuedJobs jobs' ≤ queuedJobs jobs := by
  induction h with
  | nil => exact Nat.le_refl _
  | cons hjob _ ih =>
      unfold queuedJobs at ih ⊢
      rw [List.countP_cons, List.countP_cons]
      rcases hjob with rfl | ⟨hqueued, rfl⟩
      · omega
      · rename_i job _ _ _
        have haborted : ¬decide ((abort job).status = .queued) = true := Bool.false_ne_true
        rw [if_pos (decide_eq_true hqueued), if_neg haborted]
        omega

theorem queuedJobs_set {jobs : List Job} {j : Nat} {job : Job} (hjob : jobs[j]? = some job)
    (hqueued : job.status = .queued) :
    queuedJobs (jobs.set j (abort job)) < queuedJobs jobs := by
  obtain ⟨hlt, rfl⟩ := List.getElem?_eq_some_iff.mp hjob
  have hpos : 0 < queuedJobs jobs :=
    List.countP_pos_iff.mpr ⟨_, List.getElem_mem hlt, by simpa using hqueued⟩
  unfold queuedJobs at hpos ⊢
  have haborted : ¬decide ((abort jobs[j]).status = .queued) = true := Bool.false_ne_true
  rw [List.countP_set hlt, if_pos (decide_eq_true hqueued), if_neg haborted]
  omega

theorem forall₂_set {jobs : List Job} {j : Nat} {job : Job} (hjob : jobs[j]? = some job)
    (hqueued : job.status = .queued) :
    List.Forall₂ JobSettles jobs (jobs.set j (abort job)) := by
  obtain ⟨hlt, rfl⟩ := List.getElem?_eq_some_iff.mp hjob
  refine List.forall₂_iff_get.mpr ⟨by simp, fun i hi hi' => ?_⟩
  by_cases heq : j = i
  · subst heq
    exact Or.inr ⟨hqueued, by simp⟩
  · exact Or.inl (by simp [heq])

-- A call of fork_conv aborts the job before it calls process_print.
theorem forkConv_settles {env : Env} (horiginal : ∀ n, env.forkResult n ≠ .child)
    (again : State → Except Fault State) {j printer : Nat} {s : State} {job : Job}
    (hqueue : s.list.queue = []) (hidle : ∀ p ∈ s.phead, p.busy = false)
    (hjob : s.jhead[j]? = some job) (hqueued : job.status = .queued)
    (hprinter : printer < s.phead.length) :
    ∃ s', forkConv env again j printer s = again s' ∧ Settles s s' ∧
      queuedJobs s'.jhead < queuedJobs s.jhead := by
  obtain ⟨s', hconv, hlist, hphead, hid, hjhead⟩ :=
    forkConv_spec horiginal again hjob hprinter hidle
  refine ⟨s', hconv, ⟨hlist ▸ hqueue, by rw [hlist], hphead, hid, ?_⟩, ?_⟩
  · rw [hjhead]
    exact forall₂_set hjob hqueued
  · rw [hjhead]
    exact queuedJobs_set hjob hqueued

theorem Settles.mem {s s' : State} (h : Settles s s') {j' : Job} (hj' : j' ∈ s'.jhead) :
    ∃ j ∈ s.jhead, JobSettles j j' := by
  obtain ⟨hlength, hjobs⟩ := List.forall₂_iff_get.mp h.jobs
  obtain ⟨i, hi, rfl⟩ := List.getElem_of_mem hj'
  exact ⟨s.jhead[i], List.getElem_mem (hlength ▸ hi), hjobs i (hlength ▸ hi) hi⟩

theorem Settles.consistent {s s' : State} (h : Settles s s') (hs : Consistent s) :
    Consistent s' := by
  have htypes := types_of_graph h.graph
  refine ⟨h.queue, closed_of_graph h.graph hs.closed, ?_, ?_, ?_, ?_, ?_⟩
  · rw [h.printerId, h.phead]
    exact hs.printerId
  · rw [h.printerId]
    exact hs.limit
  · rw [h.phead]
    exact hs.ids
  · rw [h.phead, htypes]
    exact hs.printerTypes
  · intro j' hj'
    obtain ⟨j, hj, hsettles⟩ := h.mem hj'
    have htype : j'.fileType = j.fileType := by
      rcases hsettles with rfl | ⟨-, rfl⟩
      · rfl
      · rfl
    rw [htypes, htype]
    exact hs.jobTypes j hj

section

variable {env : Env} (hbounds : ∀ i, env.inBounds i = true)

include hbounds

theorem Settles.waits {s s' : State} (h : Settles s s') (hqueue : s.list.queue = []) {job : Job}
    (hwaits : Waits env s job) :
    Waits env s' job := waits_of_graph hbounds hqueue h.queue h.graph h.phead hwaits

variable (horiginal : ∀ n, env.forkResult n ≠ .child)

include horiginal

-- The walk over the jobs, for a call of process_print that leaves only waiting jobs.
theorem processJobs_spec {again : State → Except Fault State} {depth : Nat}
    (hagain : ∀ s, Consistent s → (∀ p ∈ s.phead, p.busy = false) → queuedJobs s.jhead < depth →
      ∃ s', again s = .ok s' ∧ Settles s s' ∧ ∀ j ∈ s'.jhead, j.status = .queued → Waits env s' j)
    (left cursor : Nat) {s : State} (hs : Consistent s) (hidle : ∀ p ∈ s.phead, p.busy = false)
    (hdepth : queuedJobs s.jhead ≤ depth) (hlength : s.jhead.length = cursor + left)
    (hbefore : ∀ i j, i < cursor → s.jhead[i]? = some j → j.status = .queued → Waits env s j) :
    ∃ s', processJobs env again left cursor s = .ok s' ∧ Settles s s' ∧
      ∀ j ∈ s'.jhead, j.status = .queued → Waits env s' j := by
  induction left generalizing cursor s with
  | zero =>
      have hself : Searched s s := ⟨hs.queue, rfl, rfl⟩
      refine ⟨s, rfl, hself.settles, fun j hj hqueued => ?_⟩
      obtain ⟨i, hi⟩ := List.mem_iff_getElem?.mp hj
      obtain ⟨hlt, -⟩ := List.getElem?_eq_some_iff.mp hi
      exact hbefore i j (by omega) hi hqueued
  | succ left ih =>
      have hcursor : cursor < s.jhead.length := by omega
      obtain ⟨job, hjob⟩ : ∃ job, s.jhead[cursor]? = some job :=
        ⟨_, List.getElem?_eq_getElem hcursor⟩
      simp only [processJobs, hjob]
      by_cases hqueued : job.status = .queued
      · rw [if_pos hqueued]
        obtain ⟨printer, t, hfind, hsearched, hvalid, hnone⟩ := findBfs_spec hbounds job hs hidle
        have hst := hsearched.settles
        have hidle' : ∀ p ∈ t.phead, p.busy = false := hst.phead ▸ hidle
        have hjobs : t.jhead = s.jhead := by rw [hsearched.rest]
        rw [hfind, Lib.ok_bind]
        cases printer with
        | none =>
            have hwaits := hnone rfl
            have hbefore' : ∀ i j, i < cursor + 1 → t.jhead[i]? = some j → j.status = .queued →
                Waits env t j := by
              intro i j hi hj hq
              rw [hjobs] at hj
              refine hst.waits hbounds hs.queue ?_
              rcases Nat.lt_succ_iff_lt_or_eq.mp hi with hlt | rfl
              · exact hbefore i j hlt hj hq
              · rwa [← Option.some.inj (hjob.symm.trans hj)]
            obtain ⟨s', hrun, hsettles, hall⟩ :=
              ih (cursor + 1) (hst.consistent hs) hidle' (hjobs ▸ hdepth)
              (by rw [hjobs]; omega) hbefore'
            exact ⟨s', hrun, hst.trans hsettles, hall⟩
        | some printer =>
            obtain ⟨u, hconv, htu, hless⟩ :=
              forkConv_settles horiginal again hst.queue hidle' (hjobs ▸ hjob) hqueued
              (hst.phead ▸ hvalid printer rfl)
            have hsu := hst.trans htu
            rw [hjobs] at hless
            obtain ⟨v, hagainRun, huv, hall⟩ :=
              hagain u (hsu.consistent hs) (htu.phead ▸ hidle') (by omega)
            have hsv := hsu.trans huv
            have hfewer := queuedJobs_le hsv.jobs
            have hsame := hsv.jobs.length_eq
            obtain ⟨s', hrun, hsettles, hall'⟩ :=
              ih (cursor + 1) (hsv.consistent hs) (hsv.phead ▸ hidle) (by omega)
              (by omega) fun i j _ hj hq => hall j (List.mem_of_getElem? hj) hq
            simp only [hconv, hagainRun, Lib.ok_bind]
            exact ⟨s', hrun, hsv.trans hsettles, hall'⟩
      · rw [if_neg hqueued]
        refine ih (cursor + 1) hs hidle hdepth (by omega) fun i j hi hj hq => ?_
        rcases Nat.lt_succ_iff_lt_or_eq.mp hi with hlt | rfl
        · exact hbefore i j hlt hj hq
        · rw [← Option.some.inj (hjob.symm.trans hj)] at hq
          exact absurd hq hqueued

-- Each nested call of process_print finds a job less that is queued.
theorem processPrint_spec (depth : Nat) {s : State} (hs : Consistent s)
    (hidle : ∀ p ∈ s.phead, p.busy = false) (hdepth : queuedJobs s.jhead < depth) :
    ∃ s', processPrint env depth s = .ok s' ∧ Settles s s' ∧ ∀ j ∈ s'.jhead, j.status = .queued →
      Waits env s' j := by
  induction depth generalizing s with
  | zero => omega
  | succ depth ih =>
      exact processJobs_spec hbounds horiginal (fun t ht hidle' hlt => ih ht hidle' hlt)
        s.jhead.length 0 hs hidle (by omega)
        (Nat.zero_add _).symm fun i _ hi => by omega

end

end CSE320.Spooler
