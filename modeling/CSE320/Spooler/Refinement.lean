import CSE320.Spooler.Conversions
import CSE320.Spooler.Eligible
import CSE320.Spooler.Office

namespace CSE320.Spooler

open Lib (ascii)
open Relation (ReflTransGen)

-- The lines that show a printer or a job. The other ones are messages.
def Line.isStatus : Line → Bool
  | .printerStatus _ => true
  | .jobStatus _ => true
  | _ => false

def statusLines (out : List Line) : List Line := out.filter Line.isStatus

theorem statusLines_concat (out : List Line) (line : Line) : statusLines (out ++ [line]) =
    if line.isStatus then statusLines out ++ [line] else statusLines out := by
  rw [statusLines, List.filter_append]
  cases h : line.isStatus with
  | true =>
      rw [List.filter_cons_of_pos h]
      rfl
  | false =>
      rw [List.filter_cons_of_neg (Bool.eq_false_iff.mp h)]
      exact List.append_nil _

-- The globals of the program at a prompt are those of the office, whatever is marked.
structure Refines (o : Office) (s : State) : Prop where
  declared : Declared s.list.head
  types : types s.list.head = o.types
  conversions : ∀ x y, Converts s.list.head x y ↔ (x, y) ∈ o.conversions
  printers : s.phead = o.printers
  jobs : s.jhead = o.jobs
  jobId : s.jobId = BitVec.ofNat 32 o.orders.length
  log : statusLines s.out = o.log

section

variable {o : Office} {s s' : State} {env : Env}

theorem Office.printers_getElem? (i : Nat) :
    o.printers[i]? = o.devices[i]?.map fun d => d.printer i false :=
  List.getElem?_mapIdx

theorem Office.jobs_getElem? (k : Nat) :
    o.jobs[k]? = o.orders[k]?.map fun r => r.job k r.status none :=
  List.getElem?_mapIdx

theorem Refines.length_phead (h : Refines o s) : s.phead.length = o.devices.length := by
  rw [h.printers, Office.printers, List.length_mapIdx]

theorem Refines.length_jhead (h : Refines o s) : s.jhead.length = o.orders.length := by
  rw [h.jobs, Office.jobs, List.length_mapIdx]

theorem Refines.printer (h : Refines o s) {i : Nat} {d : Device} (hd : o.devices[i]? = some d) :
    s.phead[i]? = some (d.printer i false) := by
  rw [h.printers, Office.printers_getElem?, hd, Option.map_some]

theorem Refines.job (h : Refines o s) {k : Nat} {r : Order} (hr : o.orders[k]? = some r) :
    s.jhead[k]? = some (r.job k r.status none) := by
  rw [h.jobs, Office.jobs_getElem?, hr, Option.map_some]

theorem Refines.idle (h : Refines o s) : ∀ p ∈ s.phead, p.busy = false := by
  intro p hp
  obtain ⟨i, hi⟩ := List.mem_iff_getElem?.mp hp
  rw [h.printers, Office.printers_getElem?] at hi
  obtain ⟨d, -, rfl⟩ := Option.map_eq_some_iff.mp hi
  rfl

theorem Refines.with_out (h : Refines o s) {out : List Line}
    (hout : statusLines out = statusLines s.out) : Refines o { s with out } :=
  ⟨h.declared, h.types, h.conversions, h.printers, h.jobs, h.jobId, hout.trans h.log⟩

theorem Refines.note (h : Refines o s) {out lines : List Line}
    (hout : statusLines out = statusLines s.out ++ lines) : Refines (o.note lines) { s with out } :=
  ⟨h.declared, h.types, h.conversions, h.printers, h.jobs, h.jobId,
    hout.trans (congrArg (· ++ lines) h.log)⟩

-- A search changes nothing that the office knows.
theorem Refines.searched (h : Refines o s) (hs : Searched s s') : Refines o s' := by
  rw [hs.rest]
  refine ⟨declared_of_graph hs.graph h.declared, (types_of_graph hs.graph).trans h.types,
    fun x y => ?_, h.printers, h.jobs, h.jobId, h.log⟩
  rw [← h.conversions x y, ← converts_of_graph hs.graph]

theorem Refines.forward (h : Refines o s) : Forward s.list.head = o.Forward := by
  funext x y
  rw [Forward, Office.Forward, h.types, h.conversions]

-- A search finds a path exactly when the file can be converted.
theorem Refines.noPath_iff (h : Refines o s) (hbounds : ∀ i, env.inBounds i = true)
    (hqueue : s.list.queue = []) (src dest : Word) :
    NoPath env.inBounds s.list src dest ↔ ¬o.Convertible src dest := by
  rw [Spooler.noPath_iff hbounds hqueue, Office.Convertible, not_or]
  refine and_congr_right fun hne => ?_
  obtain ⟨t, ht, -⟩ := lookForPath_spec hbounds s.list hqueue hne
  have hmem := mem_lookForPath h.declared hqueue hne ht
  rw [h.forward] at hmem
  simp only [h.conversions] at hmem
  rw [← hmem]
  constructor
  · exact fun hall => hall t ht
  · intro hnot t' ht'
    obtain rfl : t = t' := Except.ok.inj (ht.symm.trans ht')
    exact hnot

theorem eligible_iff (job : Job) {i : Nat} (hi : i < 32) :
    eligible job i = true ↔ job.eligiblePrinters.getLsbD i = true := by
  have hshift : ((1 <<< i : Nat) : BitVec 32) = BitVec.twoPow 32 i := by
    apply BitVec.eq_of_toNat_eq
    rw [BitVec.toNat_twoPow, Nat.one_shiftLeft]
    rfl
  rw [eligible, decide_eq_true_eq, hshift, BitVec.and_twoPow]
  by_cases hbit : job.eligiblePrinters.getLsbD i = true
  · rw [if_pos hbit]
    refine iff_of_true (fun hzero => ?_) hbit
    have hone : (BitVec.twoPow 32 i).getLsbD i = true := by simp [hi]
    rw [hzero] at hone
    simp at hone
  · rw [if_neg hbit]
    exact iff_of_false (not_not.mpr rfl) hbit

theorem getPrinterById_eq (hs : Consistent s) (i : Nat) :
    getPrinterById s.phead i = if i < s.phead.length then some i else none := by
  unfold getPrinterById
  split
  · rename_i hi
    refine List.findIdx?_eq_some_iff_getElem.mpr ⟨hi, ?_, fun j hj => ?_⟩
    · exact decide_eq_true (hs.ids i _ (List.getElem?_eq_getElem hi))
    · have hj' : j < s.phead.length := hj.trans hi
      have hid := hs.ids j _ (List.getElem?_eq_getElem hj')
      simp only [decide_eq_true_eq, hid]
      omega
  · rename_i hi
    refine List.findIdx?_eq_none_iff.mpr fun p hp => ?_
    obtain ⟨j, hj⟩ := List.mem_iff_getElem?.mp hp
    obtain ⟨hlt, -⟩ := List.getElem?_eq_some_iff.mp hj
    have hid := hs.ids j p hj
    simp only [decide_eq_false_iff_not, hid]
    omega

end

section

variable {o : Office} {s s' : State} {env : Env}

-- The printers with identifiers from i on are tried in their order.
theorem findBfsLoop_refines (hbounds : ∀ i, env.inBounds i = true) {job : Job} {r : Order}
    (htype : job.fileType = r.type) (hset : job.eligiblePrinters = r.devices) (left i : Nat)
    {printer : Option Nat} (hleft : i + left = 32) (h : Refines o s) (hs : Consistent s)
    (hrun : findBfsLoop env job left i s = .ok (printer, s')) :
    Searched s s' ∧ printer = (o.pickFrom i r).map Prod.snd := by
  have hlimit : o.devices.length < 32 := by
    have hcount := hs.printerId
    have hmost := hs.limit
    rw [h.length_phead] at hcount
    omega
  have hself : Searched s s := ⟨hs.queue, rfl, rfl⟩
  induction left generalizing i s with
  | zero =>
      obtain ⟨rfl, rfl⟩ := Prod.mk.inj (Except.ok.inj hrun)
      rw [Office.pickFrom_of_le r (by omega)]
      exact ⟨hself, rfl⟩
  | succ left ih =>
      -- the printer with this identifier is passed over
      have hrest {t : State} (ht : Searched s t)
          (hskip : ∀ d, o.devices[i]? = some d → ¬o.Serves r d i)
          (hloop : findBfsLoop env job left (i + 1) t = .ok (printer, s')) :
          Searched s s' ∧ printer = (o.pickFrom i r).map Prod.snd := by
        have hst := ht.settles
        have hcons := hst.consistent hs
        obtain ⟨hsearched, hprinter⟩ :=
          ih (i + 1) (by omega) (h.searched ht) hcons hloop ⟨hcons.queue, rfl, rfl⟩
        refine ⟨⟨hsearched.queue, hsearched.graph.trans ht.graph, ?_⟩, hprinter.trans ?_⟩
        · exact hsearched.rest.trans (by rw [ht.rest])
        · cases hd : o.devices[i]? with
          | none =>
              have hi := List.getElem?_eq_none_iff.mp hd
              rw [Office.pickFrom_of_le r hi, Office.pickFrom_of_le r (hi.trans (Nat.le_succ i))]
          | some d => rw [(Office.pickFrom_eq r hd).2 (hskip d hd)]
      unfold findBfsLoop at hrun
      by_cases heligible : eligible job i = true
      · rw [if_pos heligible, getPrinterById_eq hs] at hrun
        have hbit := (eligible_iff job (by omega)).mp heligible
        by_cases hi : i < s.phead.length
        · have hi' : i < o.devices.length := h.length_phead ▸ hi
          obtain ⟨d, hd⟩ : ∃ d, o.devices[i]? = some d := ⟨_, List.getElem?_eq_getElem hi'⟩
          simp only [if_pos hi, h.printer hd, Device.printer, Bool.not_false, Bool.and_true] at hrun
          have hpath := h.noPath_iff hbounds hs.queue job.fileType d.type
          by_cases henabled : d.enabled = true
          · rw [if_pos henabled] at hrun
            obtain ⟨list, hbfs, hnext⟩ := Lib.bind_ok hrun
            have hresult : list.result = [] ↔ ¬o.Convertible r.type d.type := by
              rw [← htype, ← hpath]
              constructor
              · exact fun hempty => ⟨list, hbfs, hempty⟩
              · rintro ⟨list', hbfs', hempty⟩
                rwa [Except.ok.inj (hbfs.symm.trans hbfs')]
            obtain ⟨list', hbfs', hqueue, hgraph, -⟩ :=
              bfs_spec hbounds job.fileType d.type hs.queue
            obtain rfl : list = list' := Except.ok.inj (hbfs.symm.trans hbfs')
            have hsearched : Searched s { s with list, searches :=
              s.searches ++ [⟨job.fileType, d.type, s.list⟩] } := ⟨hqueue, hgraph, rfl⟩
            by_cases hempty : list.result = []
            · rw [if_neg (not_not.mpr hempty)] at hnext
              refine hrest hsearched (fun d' hd' hserves => ?_) hnext
              obtain rfl : d = d' := Option.some.inj (hd.symm.trans hd')
              exact hresult.mp hempty hserves.2.2
            · rw [if_pos hempty] at hnext
              obtain ⟨rfl, rfl⟩ := Prod.mk.inj (Except.ok.inj hnext)
              refine ⟨hsearched, ?_⟩
              have hserves : o.Serves r d i :=
                ⟨henabled, hset ▸ hbit, not_not.mp (mt hresult.mpr hempty)⟩
              rw [(Office.pickFrom_eq r hd).1 hserves]
              rfl
          · rw [if_neg henabled] at hrun
            refine hrest hself (fun d' hd' hserves => ?_) hrun
            obtain rfl : d = d' := Option.some.inj (hd.symm.trans hd')
            exact henabled hserves.1
        · simp only [if_neg hi] at hrun
          refine hrest hself (fun d hd => ?_) hrun
          obtain ⟨hlt, -⟩ := List.getElem?_eq_some_iff.mp hd
          rw [h.length_phead] at hi
          exact absurd hlt hi
      · rw [if_neg heligible] at hrun
        refine hrest hself (fun d hd hserves => heligible ?_) hrun
        rw [eligible_iff job (by omega), hset]
        exact hserves.2.1

-- A search for a printer finds the one that the office picks.
theorem findBfs_refines (hbounds : ∀ i, env.inBounds i = true) {r : Order} (k : Nat)
    (status : JobStatus) {printer : Option Nat} (h : Refines o s) (hs : Consistent s)
    (hrun : findBfs env (r.job k status none) s = .ok (printer, s')) :
    Searched s s' ∧ printer = (o.pick r).map Prod.snd :=
  findBfsLoop_refines hbounds rfl rfl 32 0 (Nat.zero_add 32) h hs hrun

-- The process that goes on serves the job and then calls process_print.
theorem forkConv_eq_bind (horiginal : ∀ n, env.forkResult n ≠ .child)
    (again : State → Except Fault State) (j printer : Nat) (s : State) :
    forkConv env again j printer s = forkConv env .ok j printer s >>= again := by
  unfold forkConv
  simp only [bind_assoc]
  refine bind_congr fun t => bind_congr fun u => ?_
  unfold fork
  cases hfork : env.forkResult u.forks with
  | child => exact absurd hfork (horiginal u.forks)
  | parent =>
      simp only [bind_assoc]
      rfl
  | failed error =>
      simp only [bind_assoc]
      rfl

end

section

variable {o : Office} {s s' : State} {env : Env}

-- What the process that goes on prints.
theorem forkConv_lines (horiginal : ∀ n, env.forkResult n ≠ .child) {j printer : Nat} {job : Job}
    {p : Printer} (hjob : s.jhead[j]? = some job) (hp : s.phead[printer]? = some p)
    (hrun : forkConv env .ok j printer s = .ok s') :
    s'.jobId = s.jobId ∧ statusLines s'.out = statusLines s.out ++
      [.printerStatus { p with busy := true },
        .jobStatus { job with status := .running, chosenPrinter := some printer },
        .printerStatus { p with busy := false }, .jobStatus (abort job)] := by
  unfold forkConv printPrinterStatus changeJobStatus printJobStatus fork at hrun
  cases hfork : env.forkResult s.forks with
  | child => exact absurd hfork (horiginal s.forks)
  | parent =>
      simp only [setBusy, State.print, List.getElem?_modify, hp, hjob, hfork, Lib.ok_bind, if_true,
        Option.map_eq_map, Option.map_some] at hrun
      obtain rfl := Except.ok.inj hrun
      refine ⟨rfl, ?_⟩
      simp only [statusLines_concat, Line.isStatus, if_true]
      simp [abort, wifexited, exitSuccess]
  | failed error =>
      simp only [setBusy, State.print, errorMsgNote, List.getElem?_modify, hp, hjob, hfork,
        Lib.ok_bind, if_true, Option.map_eq_map, Option.map_some] at hrun
      obtain rfl := Except.ok.inj hrun
      refine ⟨rfl, ?_⟩
      simp only [statusLines_concat, Line.isStatus, if_true, Bool.false_eq_true, if_false]
      simp [abort, wifexited, exitSuccess]

-- A job that is printed is one that the office hands to the printer.
theorem forkConv_refines (horiginal : ∀ n, env.forkResult n ≠ .child) {k id : Nat} {r : Order}
    {d : Device} (h : Refines o s) (hs : Consistent s) (horder : o.orders[k]? = some r)
    (hpending : r.pending = true) (hd : o.devices[id]? = some d)
    (hrun : forkConv env .ok k id s = .ok s') : Refines (o.hand k r d id) s' ∧ Consistent s' := by
  have hjob := h.job horder
  have hp := h.printer hd
  have hqueued : (r.job k r.status none).status = .queued := if_pos hpending
  have hid : id < s.phead.length := (List.getElem?_eq_some_iff.mp hp).1
  obtain ⟨t, ht, hlist, hphead, -, hjhead⟩ := forkConv_spec horiginal .ok hjob hid h.idle
  obtain rfl : s' = t := Except.ok.inj (hrun.symm.trans ht)
  obtain ⟨t, ht, hsettles, -⟩ :=
    forkConv_settles horiginal .ok hs.queue h.idle hjob hqueued hid
  obtain rfl : s' = t := Except.ok.inj (hrun.symm.trans ht)
  obtain ⟨hjobId, hout⟩ := forkConv_lines horiginal hjob hp hrun
  refine ⟨⟨hlist ▸ h.declared, ?_, ?_, hphead.trans h.printers, ?_, ?_, ?_⟩, hsettles.consistent hs⟩
  · rw [hlist]
    exact h.types
  · rw [hlist]
    exact h.conversions
  · rw [hjhead, h.jobs, Office.jobs, Office.jobs, Office.orders_hand, List.mapIdx_set]
    rfl
  · rw [hjobId, h.jobId, Office.orders_hand, List.length_set]
  · rw [hout, h.log]
    rfl

-- At a prompt nothing can be printed.
theorem Refines.settled (h : Refines o s) (hs : Consistent s)
    (hbounds : ∀ i, env.inBounds i = true) (hprompt : AtPrompt env s) (k : Nat) : o.Idle k := by
  intro r hr hpending
  have hjob := h.job hr
  have hwaits := hprompt.waiting _ (List.mem_of_getElem? hjob) (if_pos hpending)
  have hnone (i : Nat) (d : Device) (hd : o.devices[i]? = some d) : ¬o.Serves r d i := by
    rintro ⟨henabled, hbit, hconvertible⟩
    have hp := h.printer hd
    have hlt := (List.getElem?_eq_some_iff.mp hp).1
    have hcount := hs.printerId
    have hlimit := hs.limit
    refine (h.noPath_iff hbounds hs.queue r.type d.type).mp ?_ hconvertible
    refine hwaits _ (List.mem_of_getElem? hp) henabled ?_
    exact (eligible_iff _ (show i < 32 by omega)).mpr hbit
  have hfrom (left i : Nat) (hleft : o.devices.length ≤ i + left) : o.pickFrom i r = none := by
    induction left generalizing i with
    | zero => exact Office.pickFrom_of_le r hleft
    | succ left ih =>
        cases hd : o.devices[i]? with
        | none => exact Office.pickFrom_of_le r (List.getElem?_eq_none_iff.mp hd)
        | some d =>
            rw [(Office.pickFrom_eq r hd).2 (hnone i d hd)]
            exact ih (i + 1) (by omega)
  exact hfrom o.devices.length 0 (by omega)

theorem Office.device_of_pick {r : Order} {d : Device} {id : Nat} (h : o.pick r = some (d, id)) :
    o.devices[id]? = some d := by
  have hmem := List.mem_of_find?_eq_some h
  rw [List.drop_zero, List.mem_zipIdx_iff_getElem?] at hmem
  exact hmem

-- What a call of process_print does, for the next call that it makes.
def Sweeps (again : State → Except Fault State) : Prop :=
  ∀ o s s', Refines o s → Consistent s → again s = .ok s' → Refines o.sweep s' ∧ Consistent s'

section

variable (horiginal : ∀ n, env.forkResult n ≠ .child)

include horiginal

-- A job for which a printer has been found, and the call of process_print behind it.
theorem forkConv_sweeps {again : State → Except Fault State} (hagain : Sweeps again) {k : Nat}
    {r : Order} {printer : Nat} (h : Refines o s) (hs : Consistent s)
    (horder : o.orders[k]? = some r) (hpending : r.pending = true)
    (hpick : (o.pick r).map Prod.snd = some printer) (hbefore : ∀ j < k, o.Idle j)
    (hrun : forkConv env again k printer s = .ok s') : Refines o.sweep s' ∧ Consistent s' := by
  obtain ⟨⟨d, id⟩, hfound, rfl⟩ := Option.map_eq_some_iff.mp hpick
  rw [forkConv_eq_bind horiginal] at hrun
  obtain ⟨t, hconv, hrest⟩ := Lib.bind_ok hrun
  obtain ⟨ht, hcons⟩ :=
    forkConv_refines horiginal h hs horder hpending (Office.device_of_pick hfound) hconv
  have hserve : o.serve k = o.hand k r d id := by
    simp only [Office.serve, horder, if_pos hpending, hfound]
  rw [← Office.sweep_serve (List.getElem?_eq_some_iff.mp horder).1 hbefore, hserve]
  exact hagain _ t s' ht hcons hrest

variable (hbounds : ∀ i, env.inBounds i = true)

include hbounds

-- The walk over the jobs prints what a sweep prints. No job in front of the cursor can be
-- printed, and behind a call of process_print no job can.
theorem processJobs_refines {again : State → Except Fault State} (hagain : Sweeps again)
    (left cursor : Nat) (h : Refines o s) (hs : Consistent s)
    (hlength : s.jhead.length = cursor + left) (hbefore : ∀ j < cursor, o.Idle j)
    (hrun : processJobs env again left cursor s = .ok s') : Refines o.sweep s' ∧ Consistent s' := by
  induction left generalizing cursor o s with
  | zero =>
      obtain rfl := Except.ok.inj hrun
      have hidle (k : Nat) : o.Idle k := by
        by_cases hk : k < cursor
        · exact hbefore k hk
        · intro r hr
          have hlt := (List.getElem?_eq_some_iff.mp hr).1
          rw [← h.length_jhead] at hlt
          omega
      rw [Office.sweep_of_idle hidle]
      exact ⟨h, hs⟩
  | succ left ih =>
      have hcursor : cursor < o.orders.length := by
        rw [← h.length_jhead]
        omega
      obtain ⟨r, horder⟩ : ∃ r, o.orders[cursor]? = some r := ⟨_, List.getElem?_eq_getElem hcursor⟩
      have hjob := h.job horder
      -- a job that is not printed
      have hpass {t : State} (ht : Refines o t) (hcons : Consistent t)
          (hjhead : t.jhead = s.jhead) (hidle : o.Idle cursor)
          (hrest : processJobs env again left (cursor + 1) t = .ok s') :
          Refines o.sweep s' ∧ Consistent s' := by
        refine ih (cursor + 1) ht hcons (by rw [hjhead]; omega) (fun j hj => ?_) hrest
        rcases Nat.lt_succ_iff_lt_or_eq.mp hj with hlt | rfl
        · exact hbefore j hlt
        · exact hidle
      simp only [processJobs, hjob] at hrun
      by_cases hpending : r.pending = true
      · have hqueued : r.status = .queued := if_pos hpending
        have hstatus : (r.job cursor r.status none).status = .queued := hqueued
        rw [if_pos hstatus] at hrun
        obtain ⟨⟨printer, t⟩, hfind, hrest⟩ := Lib.bind_ok hrun
        obtain ⟨hsearched, hprinter⟩ := findBfs_refines hbounds cursor r.status h hs hfind
        have ht := h.searched hsearched
        have hcons := hsearched.settles.consistent hs
        have hjhead : t.jhead = s.jhead := by rw [hsearched.rest]
        cases printer with
        | none =>
            refine hpass ht hcons hjhead (fun r' hr' _ => ?_) hrest
            obtain rfl : r = r' := Option.some.inj (horder.symm.trans hr')
            exact Option.map_eq_none_iff.mp hprinter.symm
        | some printer =>
            obtain ⟨u, hconv, hnext⟩ := Lib.bind_ok hrest
            obtain ⟨hu, hcons'⟩ := forkConv_sweeps horiginal hagain ht hcons horder hpending
              hprinter.symm hbefore hconv
            have hsweep : o.sweep.sweep = o.sweep :=
              Office.sweep_of_idle fun k => Office.idle_sweep k o
            have hsame : u.jhead.length = s.jhead.length := by
              rw [hu.length_jhead, h.length_jhead]
              exact Office.length_orders_sweep o
            rw [← hsweep]
            exact ih (cursor + 1) hu hcons' (by omega) (fun j _ => Office.idle_sweep j o) hnext
      · have hstatus : ¬(r.job cursor r.status none).status = .queued := by
          simp [Order.job, Order.status, hpending]
        rw [if_neg hstatus] at hrun
        refine hpass h hs rfl (fun r' hr' hpending' => ?_) hrun
        obtain rfl : r = r' := Option.some.inj (horder.symm.trans hr')
        exact absurd hpending' hpending

theorem processPrint_refines (depth : Nat) : Sweeps (processPrint env depth) := by
  induction depth with
  | zero =>
      intro o s s' h hs hrun
      cases hrun
  | succ depth ih =>
      intro o s s' h hs hrun
      exact processJobs_refines horiginal hbounds ih s.jhead.length 0 h hs
        (Nat.zero_add _).symm (fun j hj => absurd hj (Nat.not_lt_zero j)) hrun

end

end

end CSE320.Spooler
