import CSE320.Spooler.Bounds
import CSE320.Spooler.Refinement

namespace CSE320.Spooler

open Lib (ascii)

theorem of_ite {α : Type} {p q : Prop} [Decidable p] {x y r : α} (h : (if p then x else y) = r)
    (hpos : p → x = r → q) (hneg : ¬p → y = r → q) : q := by
  by_cases hp : p
  · rw [if_pos hp] at h
    exact hpos hp h
  · rw [if_neg hp] at h
    exact hneg hp h

-- A search in a list whose entries carry their places.
theorem findIdx?_mapIdx {α β : Type} {f : Nat → α → β} {p : β → Bool} {q : α → Bool}
    (h : ∀ i a, p (f i a) = q a) (l : List α) : (l.mapIdx f).findIdx? p = l.findIdx? q := by
  induction l generalizing f with
  | nil => rfl
  | cons a l ih =>
      rw [List.mapIdx_cons, List.findIdx?_cons, List.findIdx?_cons, h,
        ih fun i a => h (i + 1) a]

theorem statusLines_append {out lines : List Line} (h : ∀ line ∈ lines, line.isStatus = true) :
    statusLines (out ++ lines) = statusLines out ++ lines := by
  rw [statusLines, List.filter_append, List.filter_eq_self.mpr h]
  rfl

section

variable {o : Office} {s s' : State} {env : Env}

theorem Refines.place (h : Refines o s) (name : Word) :
    searchPrinter s.phead name = o.place name := by
  rw [searchPrinter, h.printers, Office.place, Office.printers]
  exact findIdx?_mapIdx (q := fun d : Device => d.name = name) (fun _ _ => rfl) o.devices

theorem Refines.message (h : Refines o s) {line : Line} (hline : line.isStatus = false) :
    Refines o (s.print line) := by
  refine h.with_out ?_
  rw [statusLines_concat, hline]
  rfl

theorem Refines.status (h : Refines o s) {line : Line} (hline : line.isStatus = true) :
    Refines (o.note [line]) (s.print line) := by
  refine h.note ?_
  rw [statusLines_concat, if_pos hline]

theorem Refines.tooManyArg (h : Refines o s) : Refines o (tryHelp (tooManyArg s)) :=
  (h.message rfl).message rfl

theorem Refines.reqArg (h : Refines o s) (str : String) : Refines o (tryHelp (reqArg str s)) :=
  (h.message rfl).message rfl

theorem Refines.addList (h : Refines o s) (newData : Word) :
    Refines (o.declareType newData) (addList newData s) := by
  have hdeclared := h.declared.addList newData
  have hconversions := converts_addList newData s
  revert hdeclared hconversions
  unfold Spooler.addList Office.declareType
  rw [← h.types]
  by_cases hold : newData ∈ Spooler.types s.list.head
  · rw [if_pos (searchList_isSome.mpr hold), if_pos hold]
    exact fun _ _ => h.message rfl
  · rw [if_neg (mt searchList_isSome.mp hold), if_neg hold]
    intro hdeclared hconversions
    refine ⟨hdeclared, ?_, fun x y => (hconversions x y).trans (h.conversions x y), h.printers,
      h.jobs, h.jobId, h.log⟩
    simp [Spooler.types]

theorem Refines.addConv (h : Refines o s) (data1 data2 convProg : Word) (args : List Word) :
    Refines (o.declareConversion data1 data2) (addConv data1 data2 convProg args s) := by
  have hdeclared := h.declared.addConv data1 data2 convProg args
  have htypes := types_addConv h.declared data1 data2 convProg args
  have hconversions := converts_addConv data1 data2 convProg args s
  revert hdeclared htypes hconversions
  unfold Spooler.addConv Office.declareConversion
  rw [← h.types]
  by_cases hne : data1 = data2
  · rw [if_pos hne, if_neg (fun hall => hall.1 hne)]
    exact fun _ _ _ => h
  · rw [if_neg hne]
    cases hd1 : searchList s.list.head data1 with
    | none =>
        have hnot : data1 ∉ Spooler.types s.list.head := by
          rw [← searchList_isSome, hd1]
          exact Bool.false_ne_true
        rw [if_neg (fun hall => hnot hall.2.1)]
        exact fun _ _ _ => h.message rfl
    | some d1 =>
        have hmem1 : data1 ∈ Spooler.types s.list.head := searchList_isSome.mp (by rw [hd1]; rfl)
        cases hd2 : searchList s.list.head data2 with
        | none =>
            have hnot : data2 ∉ Spooler.types s.list.head := by
              rw [← searchList_isSome, hd2]
              exact Bool.false_ne_true
            rw [if_neg (fun hall => hnot hall.2.2)]
            exact fun _ _ _ => h.message rfl
        | some d2 =>
            have hmem2 : data2 ∈ Spooler.types s.list.head :=
              searchList_isSome.mp (by rw [hd2]; rfl)
            rw [if_pos ⟨hne, hmem1, hmem2⟩]
            intro hdeclared htypes hconversions
            refine ⟨hdeclared, htypes, fun x y => (hconversions x y).trans ?_,
              h.printers, h.jobs, h.jobId, h.log⟩
            rw [h.conversions, List.mem_append, List.mem_singleton, Prod.mk.injEq]
            apply or_congr_right
            constructor
            · rintro ⟨⟨rfl, rfl⟩, -⟩
              exact ⟨rfl, rfl⟩
            · rintro ⟨rfl, rfl⟩
              exact ⟨⟨rfl, rfl⟩, hne, hmem1, hmem2⟩

theorem Refines.printPrinter (h : Refines o s) :
    Refines (o.note (o.printers.map .printerStatus)) (printPrinter s) := by
  unfold Spooler.printPrinter
  split
  · rename_i hnone
    have hlines : o.printers.map Line.printerStatus = [] := by
      rw [← h.printers, hnone]
      rfl
    rw [hlines]
    refine h.note ?_
    rw [statusLines_concat, List.append_nil]
    rfl
  · refine h.note ?_
    rw [h.printers]
    refine statusLines_append fun line hline => ?_
    obtain ⟨p, -, rfl⟩ := List.mem_map.mp hline
    rfl

theorem Refines.printJob (h : Refines o s) :
    Refines (o.note (o.jobs.map .jobStatus)) (printJob s) := by
  unfold Spooler.printJob
  split
  · rename_i hnone
    have hlines : o.jobs.map Line.jobStatus = [] := by
      rw [← h.jobs, hnone]
      rfl
    rw [hlines]
    refine h.note ?_
    rw [statusLines_concat, List.append_nil]
    rfl
  · refine h.note ?_
    rw [h.jobs]
    refine statusLines_append fun line hline => ?_
    obtain ⟨j, -, rfl⟩ := List.mem_map.mp hline
    rfl

theorem Refines.named_iff (h : Refines o s) (name : Word) :
    (o.place name).isSome = true ↔ ∃ p ∈ s.phead, p.name = name := by
  rw [← h.place, searchPrinter, List.findIdx?_isSome, List.any_eq_true]
  simp only [decide_eq_true_eq]

theorem Refines.bitOf (h : Refines o s) :
    bitOf s.phead = fun name => (o.place name).getD 0 := by
  funext name
  rw [Spooler.bitOf, ← search_eq_printerNamed, h.place]
  cases hplace : o.place name with
  | none => rfl
  | some i =>
      obtain ⟨hlt, -⟩ := List.findIdx?_eq_some_iff_getElem.mp hplace
      rw [Option.bind_some, h.printer (List.getElem?_eq_getElem hlt)]
      rfl

-- A name that no printer has ends the command with messages.
theorem Refines.printerSetValue_of_unknown (h : Refines o s) {name : Word}
    (hname : o.place name = none) : ∃ line, line.isStatus = false ∧
      printerSetValue name s = (0, s.print line) := by
  rw [← h.place] at hname
  rw [printerSetValue, hname]
  exact ⟨_, rfl, rfl⟩

theorem Refines.printerSet_of_unknown (h : Refines o s) {names : List Word}
    (hnames : ∃ name ∈ names, o.place name = none) (set : BitVec 32) :
    (printerSet set names s).1 = none ∧
      statusLines (printerSet set names s).2.out = statusLines s.out := by
  induction names generalizing set with
  | nil =>
      obtain ⟨name, hmem, -⟩ := hnames
      cases hmem
  | cons name names ih =>
      cases hplace : o.place name with
      | none =>
          obtain ⟨line, hline, hset⟩ := h.printerSetValue_of_unknown hplace
          rw [printerSet, hset]
          exact ⟨rfl, (h.message hline).log.trans h.log.symm⟩
      | some i =>
          have hrest : ∃ name ∈ names, o.place name = none := by
            obtain ⟨name', hmem, hnone⟩ := hnames
            rcases List.mem_cons.mp hmem with rfl | hmem
            · rw [hplace] at hnone
              cases hnone
            · exact ⟨name', hmem, hnone⟩
          have hnamed := (h.named_iff name).mp (by rw [hplace]; rfl)
          obtain ⟨p, hp⟩ := Option.isSome_iff_exists.mp (printerNamed_isSome hnamed)
          simp only [printerSet, printerSetValue_of_named hp]
          split
          · exact ih hrest _
          · exact ⟨rfl, rfl⟩

theorem Refines.eligibleSet (h : Refines o s) (hs : Consistent s) (names : List Word) :
    (eligibleSet names s).1 = o.named names ∧
      statusLines (eligibleSet names s).2.out = statusLines s.out := by
  by_cases hne : names = []
  · subst hne
    exact ⟨rfl, rfl⟩
  · unfold Office.named
    rw [if_neg hne]
    by_cases hall : ∀ name ∈ names, (o.place name).isSome = true
    · rw [if_pos hall, eligibleSet_of_named hs (fun name hmem => (h.named_iff name).mp
        (hall name hmem)) hne, h.bitOf]
      show _ = (if Lib.flipped (fun name => (o.place name).getD 0) names 0#32 = 0 then none
        else some (Lib.flipped (fun name => (o.place name).getD 0) names 0#32)) ∧ _
      by_cases hzero : Lib.flipped (fun name => (o.place name).getD 0) names 0#32 = 0
      · rw [if_pos hzero, if_pos hzero]
        exact ⟨rfl, (h.message rfl).log.trans h.log.symm⟩
      · rw [if_neg hzero, if_neg hzero]
        exact ⟨rfl, rfl⟩
    · rw [if_neg hall]
      have hunknown : ∃ name ∈ names, o.place name = none := by
        simpa only [not_forall, exists_prop, Bool.not_eq_true, Option.isSome_eq_false_iff,
          Option.isNone_iff_eq_none] using hall
      unfold Spooler.eligibleSet
      split
      · exact absurd rfl hne
      · rename_i arg2
        obtain ⟨name, hmem, hnone⟩ := hunknown
        obtain rfl := List.mem_singleton.mp hmem
        obtain ⟨line, hline, hset⟩ := h.printerSetValue_of_unknown hnone
        rw [hset]
        exact ⟨rfl, ((h.message hline).message rfl).log.trans h.log.symm⟩
      · obtain ⟨hnone, hout⟩ := h.printerSet_of_unknown hunknown 0
        generalize printerSet 0 names s = result at hnone hout
        obtain ⟨set, t⟩ := result
        simp only at hnone
        subst hnone
        exact ⟨rfl, hout⟩

theorem Refines.take (h : Refines o s) (r : Order) (hpending : r.pending = true) {out : List Line}
    (hout : statusLines out = statusLines s.out) : Refines (o.take r)
      { s with
        jhead := s.jhead ++ [r.job o.orders.length .queued none], jobId := s.jobId + 1,
        out := out ++ [.jobStatus (r.job o.orders.length .queued none)] } := by
  refine ⟨h.declared, h.types, h.conversions, h.printers, ?_, ?_, ?_⟩
  · simp [h.jobs, Office.jobs, Office.take, Office.note, Order.status, hpending]
  · simp [h.jobId, Office.take, Office.note, BitVec.ofNat_add]
  · rw [statusLines_concat, if_pos (by rfl), hout, h.log]
    rfl

-- A print command makes the job that the office takes, if it takes one.
theorem Refines.print (h : Refines o s) (hs : Consistent s) {arg1 : Word} {names : List Word}
    {newJob : Option Nat} (hrun : print arg1 names s = .ok (newJob, s')) :
    Refines (o.submit arg1 names) s' ∧ (newJob = none ∧ o.submit arg1 names = o ∨
      ∃ r, newJob = some o.orders.length ∧ r.pending = true ∧
        o.submit arg1 names = o.take r) := by
  obtain ⟨hset, hout⟩ := h.eligibleSet hs names
  unfold Spooler.print at hrun
  cases hext : extension arg1 with
  | none =>
      have hsubmit : o.submit arg1 names = o := by simp only [Office.submit, hext]
      simp only [hext] at hrun
      obtain ⟨rfl, rfl⟩ := Prod.mk.inj (Except.ok.inj hrun)
      rw [hsubmit]
      exact ⟨h.message rfl, Or.inl ⟨rfl, rfl⟩⟩
  | some ext =>
      simp only [hext] at hrun
      by_cases htype : ext ∈ Spooler.types s.list.head
      · have hsome : ¬(searchList s.list.head ext).isNone = true := by
          rw [← searchList_isSome, ← Option.not_isNone, Bool.not_eq_true'] at htype
          rw [htype]
          exact Bool.false_ne_true
        rw [if_neg hsome] at hrun
        rw [h.types] at htype
        obtain ⟨out, hstate⟩ := eligibleSet_out names s
        generalize Spooler.eligibleSet names s = result at hrun hset hout hstate
        obtain ⟨set, t⟩ := result
        simp only at hset hout hstate
        subst hset hstate
        cases hnamed : o.named names with
        | none =>
            have hsubmit : o.submit arg1 names = o := by
              simp only [Office.submit, hext, hnamed, ite_self]
            simp only [hnamed] at hrun
            obtain ⟨t, hdelivered, hrest⟩ := Lib.bind_ok hrun
            obtain ⟨rfl, -⟩ := delivered_eq_ok.mp hdelivered
            obtain ⟨rfl, rfl⟩ := Prod.mk.inj (Except.ok.inj hrest)
            rw [hsubmit]
            exact ⟨h.with_out hout, Or.inl ⟨rfl, rfl⟩⟩
        | some devices =>
            have hsubmit : o.submit arg1 names = o.take ⟨arg1, ext, devices, true⟩ := by
              simp only [Office.submit, hext, if_pos htype, hnamed]
            simp only [hnamed, addJob, printJobStatus, List.getElem?_concat_length, Lib.ok_bind]
              at hrun
            obtain ⟨rfl, rfl⟩ := Prod.mk.inj (Except.ok.inj hrun)
            have htake := h.take ⟨arg1, ext, devices, true⟩ rfl hout
            rw [hsubmit, h.length_jhead]
            refine ⟨?_, Or.inr ⟨⟨arg1, ext, devices, true⟩, rfl, rfl, rfl⟩⟩
            rw [h.jobId] at htake ⊢
            exact htake
      · have hnone : (searchList s.list.head ext).isNone = true := by
          rw [← searchList_isSome, Bool.not_eq_true, Option.isSome_eq_false_iff] at htype
          exact htype
        rw [if_pos hnone] at hrun
        rw [h.types] at htype
        have hsubmit : o.submit arg1 names = o := by
          simp only [Office.submit, hext, if_neg htype]
        obtain ⟨rfl, rfl⟩ := Prod.mk.inj (Except.ok.inj hrun)
        rw [hsubmit]
        exact ⟨h.message rfl, Or.inl ⟨rfl, rfl⟩⟩

theorem Refines.declarePrinter (h : Refines o s) (hs : Consistent s) {name type : Word}
    (hrun : declarePrinter [name, type] s = .ok s') : Refines (o.declarePrinter name type) s' := by
  unfold Office.declarePrinter
  rw [← h.place, ← h.types]
  by_cases hnew : searchPrinter s.phead name = none ∧ type ∈ Spooler.types s.list.head
  · rw [if_pos hnew]
    rw [declarePrinter_eq hnew.1 hnew.2] at hrun
    split at hrun
    · cases hrun
    · obtain rfl := Except.ok.inj hrun
      have hid : s.printerId = o.devices.length := hs.printerId.trans h.length_phead
      refine ⟨h.declared, rfl, h.conversions, ?_, h.jobs, h.jobId, ?_⟩
      · simp [withPrinter, State.print, h.printers, Office.printers, Office.note, Device.printer,
          hid]
      · show statusLines (s.out ++ [.printerStatus ⟨s.printerId, name, type, false, false⟩]) = _
        rw [statusLines_concat, if_pos (by rfl), h.log, hid]
        rfl
  · rw [if_neg hnew]
    rw [← searchList_isSome, ← Option.isNone_iff_eq_none, ← Bool.and_eq_true] at hnew
    rw [Spooler.declarePrinter, if_neg hnew] at hrun
    obtain rfl := Except.ok.inj hrun
    exact h.message rfl

-- A job number is the place of the job.
theorem searchJobid_jobs (num : BitVec 32) : searchJobid o.jobs num =
    if num.toNat < o.orders.length then some num.toNat else none := by
  have hid (k : Nat) (hk : k < o.jobs.length) :
      (o.jobs.get ⟨k, hk⟩).jobid = BitVec.ofNat 32 k := by simp [Office.jobs, Order.job]
  have hsmall (k : Nat) (hk : BitVec.ofNat 32 k = num) : num.toNat ≤ k := by
    rw [← hk, BitVec.toNat_ofNat]
    exact Nat.mod_le k (2 ^ 32)
  have hlength : o.jobs.length = o.orders.length := List.length_mapIdx
  unfold searchJobid
  split
  · rename_i hlt
    have hlt' : num.toNat < o.jobs.length := by rwa [hlength]
    refine List.findIdx?_eq_some_iff_getElem.mpr ⟨hlt', ?_, fun k hk => ?_⟩
    · refine decide_eq_true ((hid _ hlt').trans ?_)
      exact BitVec.eq_of_toNat_eq (by simp)
    · intro hsame
      have hle := hsmall k ((hid k (hk.trans hlt')).symm.trans (of_decide_eq_true hsame))
      omega
  · rename_i hle
    refine List.findIdx?_eq_none_iff.mpr fun j hj => decide_eq_false fun hsame => ?_
    obtain ⟨k, hk, rfl⟩ := List.getElem_of_mem hj
    have hle' := hsmall k ((hid k hk).symm.trans hsame)
    omega

theorem Refines.onJob (h : Refines o s) {arg1 : Word} {command : Nat → Job → Except Fault State}
    (hrun : onJob arg1 s command = .ok s') : o.called arg1 = none ∧ Refines o s' ∨
      ∃ r, o.called arg1 = some r ∧ o.orders[(strtoi arg1).toNat]? = some r ∧
        command (strtoi arg1).toNat (r.job (strtoi arg1).toNat r.status none) = .ok s' := by
  unfold Spooler.onJob at hrun
  unfold Office.called
  simp only at hrun
  by_cases hnum : (strtoi arg1).toInt ≥ 0
  · rw [if_pos hnum, h.jobs, searchJobid_jobs] at hrun
    rw [if_pos hnum]
    by_cases hlt : (strtoi arg1).toNat < o.orders.length
    · have horder := List.getElem?_eq_getElem hlt
      rw [if_pos hlt] at hrun
      simp only [Office.jobs_getElem?, horder, Option.map_some] at hrun
      exact Or.inr ⟨_, horder, horder, hrun⟩
    · rw [if_neg hlt] at hrun
      obtain rfl := Except.ok.inj hrun
      exact Or.inl ⟨List.getElem?_eq_none (Nat.not_lt.mp hlt), h.message rfl⟩
  · rw [if_neg hnum] at hrun
    obtain rfl := Except.ok.inj hrun
    rw [if_neg hnum]
    exact Or.inl ⟨rfl, h.message rfl⟩

theorem Refines.cancel (h : Refines o s) {arg1 : Word} (hrun : cancel arg1 s = .ok s') :
    Refines (o.withdraw arg1) s' := by
  unfold Office.withdraw
  rcases h.onJob hrun with ⟨hcalled, h'⟩ | ⟨r, hcalled, horder, hchange⟩
  · rw [hcalled]
    exact h'
  · rw [hcalled]
    simp only
    generalize (strtoi arg1).toNat = k at horder hchange ⊢
    have hjob := h.job horder
    have hjhead : s.jhead.modify k abort =
        ({ o with orders := o.orders.set k r.closed } : Office).jobs := by
      have hlt := (List.getElem?_eq_some_iff.mp hjob).1
      rw [Office.jobs, List.mapIdx_set, ← Office.jobs, ← h.jobs]
      refine List.ext_getElem? fun i => ?_
      by_cases hi : k = i
      · subst hi
        rw [List.getElem?_modify_eq, hjob, List.getElem?_set_self hlt]
        rfl
      · simp [hi]
    have hline : changeJobStatus k .aborted s = .ok (State.print
        (.jobStatus (r.job k .aborted none)) { s with jhead := s.jhead.modify k abort }) := by
      show printJobStatus k { s with jhead := s.jhead.modify k abort } = _
      rw [printJobStatus]
      simp only [List.getElem?_modify_eq, hjob, Option.map_eq_map, Option.map_some]
      rfl
    rw [hline] at hchange
    obtain rfl := Except.ok.inj hchange
    have hclosed : Refines { o with orders := o.orders.set k r.closed }
        { s with jhead := s.jhead.modify k abort } := by
      refine ⟨h.declared, h.types, h.conversions, h.printers, hjhead, ?_, h.log⟩
      rw [List.length_set]
      exact h.jobId
    exact hclosed.status rfl

-- A prompt shows no job that runs or is paused, so these commands end with a message.
theorem Refines.pause (h : Refines o s) {arg1 : Word} (hrun : pause arg1 s = .ok s') :
    Refines o s' := by
  rcases h.onJob hrun with ⟨-, h'⟩ | ⟨r, -, -, hchange⟩
  · exact h'
  · have hstatus : ¬r.status = .running := by
      unfold Order.status
      split <;> decide
    replace hchange : (if r.status = .running then _ else _) = _ := hchange
    rw [if_neg hstatus] at hchange
    obtain rfl := Except.ok.inj hchange
    exact h.message rfl

theorem Refines.resume (h : Refines o s) {arg1 : Word} (hrun : resume arg1 s = .ok s') :
    Refines o s' := by
  rcases h.onJob hrun with ⟨-, h'⟩ | ⟨r, -, -, hchange⟩
  · exact h'
  · have hstatus : ¬r.status = .paused := by
      unfold Order.status
      split <;> decide
    replace hchange : (if r.status = .paused then _ else _) = _ := hchange
    rw [if_neg hstatus] at hchange
    obtain rfl := Except.ok.inj hchange
    exact h.message rfl

theorem Refines.onPrinter (h : Refines o s) {arg1 : Word}
    {command : Nat → Printer → Except Fault State} (hrun : onPrinter arg1 s command = .ok s') :
    o.place arg1 = none ∧ Refines o s' ∨ ∃ id d, o.place arg1 = some id ∧
      o.devices[id]? = some d ∧ command id (d.printer id false) = .ok s' := by
  unfold Spooler.onPrinter at hrun
  rw [h.place] at hrun
  cases hplace : o.place arg1 with
  | none =>
      rw [hplace] at hrun
      obtain ⟨rfl, -⟩ := delivered_eq_ok.mp hrun
      exact Or.inl ⟨rfl, h.message rfl⟩
  | some id =>
      obtain ⟨hlt, -⟩ := List.findIdx?_eq_some_iff_getElem.mp hplace
      have hd := List.getElem?_eq_getElem hlt
      simp only [hplace, h.printer hd] at hrun
      exact Or.inr ⟨id, _, rfl, hd, hrun⟩

-- A printer that is turned on or off.
theorem Refines.turned (h : Refines o s) (enabled : Bool) {id : Nat} {d : Device}
    (hd : o.devices[id]? = some d) :
    let d' : Device := { d with enabled }
    ∃ line, printPrinterStatus id (setEnabled id enabled s) =
        .ok ((setEnabled id enabled s).print line) ∧
      Refines (Office.note [.printerStatus (d'.printer id false)]
        { o with devices := o.devices.set id d' }) ((setEnabled id enabled s).print line) := by
  intro d'
  have hp := h.printer hd
  have hphead : (setEnabled id enabled s).phead =
      ({ o with devices := o.devices.set id d' } : Office).printers := by
    have hlt := (List.getElem?_eq_some_iff.mp hp).1
    rw [Office.printers, List.mapIdx_set, ← Office.printers, ← h.printers]
    refine List.ext_getElem? fun i => ?_
    unfold setEnabled
    by_cases hi : id = i
    · subst hi
      rw [List.getElem?_modify_eq, hp, List.getElem?_set_self hlt]
      rfl
    · simp [hi]
  have hp' : (setEnabled id enabled s).phead[id]? = some (d'.printer id false) := by
    unfold setEnabled
    rw [List.getElem?_modify_eq, hp]
    rfl
  have hturned : Refines { o with devices := o.devices.set id d' } (setEnabled id enabled s) :=
    ⟨h.declared, h.types, h.conversions, hphead, h.jobs, h.jobId, h.log⟩
  exact ⟨_, by rw [printPrinterStatus, hp'], hturned.status rfl⟩

theorem Refines.disable (h : Refines o s) {arg1 : Word} (hrun : disable arg1 s = .ok s') :
    Refines (o.turn false arg1) s' := by
  unfold Office.turn
  rcases h.onPrinter hrun with ⟨hplace, h'⟩ | ⟨id, d, hplace, hd, hchange⟩
  · rw [hplace]
    exact h'
  · simp only [hplace, hd]
    by_cases henabled : d.enabled = true
    · have hne : ¬d.enabled = false := by simp [henabled]
      have hon : (d.printer id false).enabled = true := henabled
      rw [if_pos hon] at hchange
      obtain ⟨line, hline, href⟩ := h.turned false hd
      obtain rfl := Except.ok.inj (hline.symm.trans hchange)
      rw [if_neg hne]
      exact href
    · have hoff : ¬(d.printer id false).enabled = true := henabled
      rw [if_neg hoff] at hchange
      obtain rfl := Except.ok.inj hchange
      rw [if_pos (by simpa using henabled)]
      exact h.message rfl

theorem Consistent.addConv (hs : Consistent s) (data1 data2 convProg : Word) (args : List Word) :
    Consistent (addConv data1 data2 convProg args s) := by
  unfold Spooler.addConv
  split
  · exact hs
  · split
    · exact hs.with_out _
    · exact hs.with_out _
    · rename_i d1 d2 _ hd2
      have hdata : data2 ∈ types s.list.head := searchList_isSome.mp (by rw [hd2]; rfl)
      obtain ⟨htypes, hclosed⟩ := closed_append_conv d1 convProg args hs.closed hdata
      refine ⟨hs.queue, hclosed, hs.printerId, hs.limit, hs.ids, ?_, ?_⟩
      · exact fun p hp => htypes ▸ hs.printerTypes p hp
      · exact fun j hj => htypes ▸ hs.jobTypes j hj

theorem Consistent.of_print (hs : Consistent s) {arg1 : Word} {names : List Word}
    {newJob : Option Nat} (hrun : Spooler.print arg1 names s = .ok (newJob, s')) :
    Consistent s' := by
  rcases print_spec arg1 names s with ⟨out, hprint⟩ | ⟨job, jobId, out, -, htype, hprint⟩ | hprint
  · obtain ⟨-, rfl⟩ := Prod.mk.inj (Except.ok.inj (hprint.symm.trans hrun))
    exact hs.with_out out
  · obtain ⟨-, rfl⟩ := Prod.mk.inj (Except.ok.inj (hprint.symm.trans hrun))
    exact hs.with_job jobId out htype
  · exact nomatch hprint.symm.trans hrun

section

variable (hbounds : ∀ i, env.inBounds i = true) (hs' : Consistent s') (hprompt' : AtPrompt env s')

include hbounds hs' hprompt'

-- What is at a prompt has been swept.
theorem Refines.swept (h : Refines o s') : Refines o.sweep s' := by
  rw [Office.sweep_of_idle (h.settled hs' hbounds hprompt')]
  exact h

theorem Refines.noArgument (h : Refines o s) {args : List Word} {command : State → State}
    {o' : Office} (hcommand : Refines o' (command s))
    (hrun : .ok (noArgument args s command) = (.ok s' : Except Fault State)) :
    Refines (if args = [] then o' else o).sweep s' := by
  unfold Spooler.noArgument at hrun
  by_cases hargs : args = []
  · rw [if_pos hargs] at hrun ⊢
    obtain rfl := Except.ok.inj hrun
    exact hcommand.swept hbounds hs' hprompt'
  · rw [if_neg hargs] at hrun ⊢
    obtain rfl := Except.ok.inj hrun
    exact h.tooManyArg.swept hbounds hs' hprompt'

theorem Refines.oneArgument (h : Refines o s) {name : String} {args : List Word}
    {command : Word → State → Except Fault State} {command' : Word → Office → Office}
    (hcommand : ∀ arg1, command arg1 s = .ok s' → Refines (command' arg1 o).sweep s')
    (hrun : oneArgument name args s command = .ok s') : Refines (o.one command' args).sweep s' := by
  unfold Spooler.oneArgument at hrun
  unfold Office.one
  rcases args with _ | ⟨arg1, _ | ⟨arg2, args⟩⟩
  · obtain rfl := Except.ok.inj hrun
    exact (h.reqArg name).swept hbounds hs' hprompt'
  · exact hcommand arg1 hrun
  · obtain rfl := Except.ok.inj hrun
    exact h.tooManyArg.swept hbounds hs' hprompt'

variable (horiginal : ∀ n, env.forkResult n ≠ .child)

include horiginal

theorem Refines.enable (h : Refines o s) (hs : Consistent s) {arg1 : Word}
    (hrun : enable env arg1 s = .ok s') : Refines (o.turn true arg1).sweep s' := by
  unfold Office.turn
  rcases h.onPrinter hrun with ⟨hplace, h'⟩ | ⟨id, d, hplace, hd, hchange⟩
  · rw [hplace]
    exact h'.swept hbounds hs' hprompt'
  · simp only [hplace, hd]
    by_cases henabled : d.enabled = true
    · have hon : ¬(!(d.printer id false).enabled) = true := by simp [Device.printer, henabled]
      rw [if_neg hon] at hchange
      obtain rfl := Except.ok.inj hchange
      rw [if_pos henabled]
      exact (h.message rfl).swept hbounds hs' hprompt'
    · have hoff : (!(d.printer id false).enabled) = true := by simpa [Device.printer] using henabled
      rw [if_pos hoff] at hchange
      obtain ⟨line, hline, href⟩ := h.turned true hd
      rw [hline, Lib.ok_bind] at hchange
      rw [if_neg henabled]
      exact (processPrint_refines horiginal hbounds _ _ _ _ href
        ((hs.setEnabled id true).print line) hchange).1

theorem Refines.declareConversion (h : Refines o s) (hs : Consistent s) {args : List Word}
    (hrun : declareConversion env args s = .ok s') :
    Refines (o.accept (ascii "conversion") args).sweep s' := by
  rcases args with _ | ⟨arg1, _ | ⟨arg2, _ | ⟨arg3, rest⟩⟩⟩
  · obtain rfl := Except.ok.inj hrun
    exact (h.reqArg "conversion").swept hbounds hs' hprompt'
  · obtain rfl := Except.ok.inj hrun
    exact (h.reqArg "conversion").swept hbounds hs' hprompt'
  · obtain rfl := Except.ok.inj hrun
    exact (h.reqArg "conversion").swept hbounds hs' hprompt'
  · obtain ⟨t, hdelivered, hsweep⟩ := Lib.bind_ok hrun
    obtain ⟨rfl, -⟩ := delivered_eq_ok.mp hdelivered
    exact (processPrint_refines horiginal hbounds _ _ _ _ (h.addConv arg1 arg2 arg3 rest)
      (hs.addConv arg1 arg2 arg3 rest) hsweep).1

theorem Refines.printFile (h : Refines o s) (hs : Consistent s) (hprompt : AtPrompt env s)
    {arg1 : Word} {names : List Word} (hrun : printFile env (arg1 :: names) s = .ok s') :
    Refines (o.submit arg1 names).sweep s' := by
  obtain ⟨⟨newJob, t⟩, hprint, hrest⟩ := Lib.bind_ok hrun
  obtain ⟨ht, hnew⟩ := h.print hs hprint
  have hcons := hs.of_print hprint
  rcases hnew with ⟨rfl, -⟩ | ⟨r, rfl, hpending, hsubmit⟩
  · obtain rfl := Except.ok.inj hrest
    exact ht.swept hbounds hs' hprompt'
  · rw [hsubmit] at ht ⊢
    have horder : (o.take r).orders[o.orders.length]? = some r := List.getElem?_concat_length
    simp only [ht.job horder] at hrest
    obtain ⟨⟨printer, u⟩, hfind, hconv⟩ := Lib.bind_ok hrest
    obtain ⟨hsearched, hprinter⟩ := findBfs_refines hbounds _ _ ht hcons hfind
    have hu := ht.searched hsearched
    cases printer with
    | none =>
        obtain rfl := Except.ok.inj hconv
        exact hu.swept hbounds hs' hprompt'
    | some p =>
        -- the other jobs have been waiting before the command
        have hbefore (j : Nat) (hj : j < o.orders.length) : (o.take r).Idle j := by
          intro r' hr'
          have hr'' : (o.orders ++ [r])[j]? = some r' := hr'
          rw [List.getElem?_append_left hj] at hr''
          exact h.settled hs hbounds hprompt j r' hr''
        exact (forkConv_sweeps horiginal (processPrint_refines horiginal hbounds _) hu
          (hsearched.settles.consistent hcons) horder hpending hprinter.symm hbefore hconv).1

-- A command of the program does what the office does.
theorem Refines.command (h : Refines o s) (hs : Consistent s) (hprompt : AtPrompt env s)
    {token : Word} {args : List Word} (hrun : command env token args s = .ok s') :
    Refines (o.accept token args).sweep s' := by
  have hswept {o' : Office} (h' : Refines o' s') : Refines o'.sweep s' :=
    h'.swept hbounds hs' hprompt'
  unfold Spooler.command at hrun
  refine of_ite hrun (fun htoken hcommand => ?_) fun hhelp hrun => ?_
  · subst token
    have hhelp := h.noArgument hbounds hs' hprompt' (h.message rfl) hcommand
    rwa [ite_self] at hhelp
  refine of_ite hrun (fun htoken hcommand => ?_) fun htype hrun => ?_
  · subst token
    refine h.oneArgument hbounds hs' hprompt' (fun arg1 hadd => hswept ?_) hcommand
    rw [← Except.ok.inj hadd]
    exact h.addList arg1
  refine of_ite hrun (fun htoken hcommand => ?_) fun hprinter hrun => ?_
  · subst token
    rcases args with _ | ⟨name, _ | ⟨type, _ | ⟨third, rest⟩⟩⟩
    · obtain rfl := Except.ok.inj hcommand
      exact hswept (h.reqArg "printer")
    · obtain rfl := Except.ok.inj hcommand
      exact hswept (h.reqArg "printer")
    · exact hswept (h.declarePrinter hs hcommand)
    · obtain rfl := Except.ok.inj hcommand
      exact hswept h.tooManyArg
  refine of_ite hrun (fun htoken hcommand => ?_) fun hconversion hrun => ?_
  · subst token
    exact h.declareConversion hbounds hs' hprompt' horiginal hs hcommand
  refine of_ite hrun (fun htoken hcommand => ?_) fun hprinters hrun => ?_
  · subst token
    exact h.noArgument hbounds hs' hprompt' h.printPrinter hcommand
  refine of_ite hrun (fun htoken hcommand => ?_) fun hjobs hrun => ?_
  · subst token
    exact h.noArgument hbounds hs' hprompt' h.printJob hcommand
  refine of_ite hrun (fun htoken hcommand => ?_) fun hprint hrun => ?_
  · subst token
    rcases args with _ | ⟨arg1, names⟩
    · obtain rfl := Except.ok.inj hcommand
      exact hswept (h.reqArg "print")
    · exact h.printFile hbounds hs' hprompt' horiginal hs hprompt hcommand
  refine of_ite hrun (fun htoken hcommand => ?_) fun hcancel hrun => ?_
  · subst token
    exact h.oneArgument hbounds hs' hprompt' (fun arg1 hwithdraw => hswept (h.cancel hwithdraw))
      hcommand
  -- a command that has no part in the office
  have hnone {name : String} {f : Word → State → Except Fault State}
      (hf : ∀ arg1, f arg1 s = .ok s' → Refines o s')
      (hrun : Spooler.oneArgument name args s f = .ok s') : Refines o.sweep s' := by
    have hone : o.one (fun _ o => o) args = o := by
      unfold Office.one
      split <;> rfl
    rw [← hone]
    exact h.oneArgument hbounds hs' hprompt' (fun arg1 hcommand => hswept (hf arg1 hcommand)) hrun
  refine of_ite hrun (fun htoken hcommand => ?_) fun hpause hrun => ?_
  · subst token
    exact hnone (fun _ hpause => h.pause hpause) hcommand
  refine of_ite hrun (fun htoken hcommand => ?_) fun hresume hrun => ?_
  · subst token
    exact hnone (fun _ hresume => h.resume hresume) hcommand
  refine of_ite hrun (fun htoken hcommand => ?_) fun hdisable hrun => ?_
  · subst token
    exact h.oneArgument hbounds hs' hprompt' (fun arg1 hturn => hswept (h.disable hturn)) hcommand
  refine of_ite hrun (fun htoken hcommand => ?_) fun henable hrun => ?_
  · subst token
    exact h.oneArgument hbounds hs' hprompt'
      (fun arg1 hturn => h.enable hbounds hs' hprompt' horiginal hs hturn) hcommand
  · have haccept : o.accept token args = o := by
      unfold Office.accept
      rw [if_neg htype, if_neg hprinter, if_neg hconversion, if_neg hprinters, if_neg hjobs,
        if_neg hprint, if_neg hcancel, if_neg hdisable, if_neg henable]
    rw [haccept]
    obtain ⟨rfl, -⟩ := delivered_eq_ok.mp hrun
    exact hswept ((h.message rfl).message rfl)

end

-- The commands of a session up to the first quit.
theorem Refines.session (hbounds : ∀ i, env.inBounds i = true)
    (horiginal : ∀ n, env.forkResult n ≠ .child) (commands : List (List Word)) (h : Refines o s)
    (hs : Consistent s) (hprompt : AtPrompt env s) (hrun : session env commands s = .ok s') :
    Refines (o.run commands) s' := by
  induction commands generalizing o s with
  | nil =>
      obtain rfl := Except.ok.inj hrun
      exact h
  | cons words commands ih =>
      have hlimit (hdeclares : declares s words = true) : s.printerId < 31 := by
        by_contra hmost
        have hlast : s.printerId = 31 := Nat.le_antisymm hs.limit (Nat.not_lt.mp hmost)
        rw [Spooler.session, interactiveMode_of_limit env hdeclares hlast] at hrun
        cases hrun
      have hmode := interactiveMode_spec hbounds horiginal hs hprompt words hlimit
      rw [Spooler.session] at hrun
      have hfit : fit (complaints s words) = true := by
        by_contra hlong
        rw [if_neg hlong] at hmode
        rw [hmode] at hrun
        cases hrun
      rw [if_pos hfit] at hmode
      obtain ⟨more, t, hwords, hcons, hprompt', -⟩ := hmode
      rw [hwords, Lib.ok_bind] at hrun
      rw [Office.run]
      rcases words with _ | ⟨token, args⟩
      · obtain ⟨rfl, rfl⟩ := Prod.mk.inj (Except.ok.inj hwords)
        exact ih h hs hprompt hrun
      · rw [interactiveMode] at hwords
        by_cases hquit : token = ascii "quit"
        · subst hquit
          rw [if_pos rfl] at hwords
          by_cases hargs : args = []
          · rw [if_pos hargs] at hwords
            obtain ⟨rfl, rfl⟩ := Prod.mk.inj (Except.ok.inj hwords)
            obtain rfl := Except.ok.inj hrun
            rw [hargs, if_pos rfl]
            exact h
          · rw [if_neg hargs] at hwords
            obtain ⟨rfl, rfl⟩ := Prod.mk.inj (Except.ok.inj hwords)
            rw [if_neg (by simpa using hargs)]
            exact ih (h.tooManyArg.swept hbounds hcons hprompt') hcons hprompt' hrun
        · rw [if_neg hquit] at hwords
          obtain ⟨u, hcommand, hmore⟩ := Lib.bind_ok hwords
          obtain ⟨rfl, rfl⟩ := Prod.mk.inj (Except.ok.inj hmore)
          rw [if_neg fun heq => hquit (List.cons.inj heq).1]
          refine ih ?_ hcons hprompt' hrun
          exact h.command hbounds hcons hprompt' horiginal hs hprompt hcommand

end

-- The bounds of the program that a session must keep: the printers, the buffers of the
-- messages, and the arrays of the searches.
structure Bounded (forkError : Nat → Option ErrorText) (commands : List (List Word)) : Prop where
  printers : declared (unbounded forkError) commands .start ≤ 31
  words : worded (unbounded forkError) commands .start = true
  searches : ∀ s, session (unbounded forkError) commands .start = .ok s →
    ∀ call ∈ s.searches, Fits call

end CSE320.Spooler
