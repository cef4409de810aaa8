import CSE320.Spooler.Prompt
import CSE320.Lib.Bits

namespace CSE320.Spooler

open Lib (ascii)

def printerNamed (head : List Printer) (name : Word) : Option Printer :=
  head.find? fun p => p.name = name

-- The jobs behind the command are those before, some of them aborted, and a new one, whose
-- set has exactly the bits of the printers that are named.
def EligibleRight (env : Env) (file : Word) (names : List Word) (s : State) : Prop :=
  ∃ job s', command env (ascii "print") (file :: names) s = .ok s' ∧
    List.Forall₂ JobSettles (s.jhead ++ [job]) s'.jhead ∧ job.fileName = file ∧
      some job.fileType = extension file ∧
    ∀ i < 32, job.eligiblePrinters.getLsbD i = true ↔
      ∃ name ∈ names, ∃ p, printerNamed s.phead name = some p ∧ p.id = i

-- The number of the bit that a name stands for.
def bitOf (head : List Printer) (name : Word) : Nat := (printerNamed head name).elim 0 Printer.id

theorem search_eq_printerNamed (head : List Printer) (name : Word) :
    (searchPrinter head name).bind (head[·]?) = printerNamed head name := by
  unfold searchPrinter printerNamed
  induction head with
  | nil => rfl
  | cons p head ih =>
      rw [List.findIdx?_cons, List.find?_cons]
      by_cases h : p.name = name
      · simp [h]
      · simp only [h, decide_false, Bool.false_eq_true, if_false]
        rw [← ih, Option.bind_map]
        rfl

theorem printerSetValue_of_named {name : Word} {s : State} {p : Printer}
    (h : printerNamed s.phead name = some p) :
    printerSetValue name s = (BitVec.twoPow 32 (bitOf s.phead name), s) := by
  unfold printerSetValue
  rw [search_eq_printerNamed, h, bitOf, h, BitVec.twoPow_eq]
  rfl

section

variable {s : State} (hs : Consistent s) {names : List Word}
  (hnames : ∀ name ∈ names, ∃ p ∈ s.phead, p.name = name)

theorem printerNamed_isSome {name : Word} (h : ∃ p ∈ s.phead, p.name = name) :
    (printerNamed s.phead name).isSome = true := by
  rw [printerNamed, List.find?_isSome]
  obtain ⟨p, hp, hname⟩ := h
  exact ⟨p, hp, by simpa using hname⟩

include hs

-- The bit of a name is the place of its printer.
theorem bitOf_spec {name : Word} (h : ∃ p ∈ s.phead, p.name = name) :
    ∃ p, printerNamed s.phead name = some p ∧ p.name = name ∧ p.id = bitOf s.phead name ∧
      s.phead[bitOf s.phead name]? = some p ∧ bitOf s.phead name < 32 := by
  obtain ⟨p, hp⟩ := Option.isSome_iff_exists.mp (printerNamed_isSome h)
  have hname : p.name = name := by simpa using List.find?_some hp
  have hbit : bitOf s.phead name = p.id := by rw [bitOf, hp, Option.elim_some]
  obtain ⟨i, hi⟩ := List.mem_iff_getElem?.mp (List.mem_of_find?_eq_some hp)
  obtain ⟨hlt, -⟩ := List.getElem?_eq_some_iff.mp hi
  have hid := hs.ids i p hi
  have hcount := hs.printerId
  have hlimit := hs.limit
  refine ⟨p, hp, hname, hbit.symm, ?_, ?_⟩
  · rw [hbit, hid, hi]
  · omega

include hnames

theorem bitOf_inj {name name' : Word} (h : name ∈ names) (h' : name' ∈ names)
    (hbit : bitOf s.phead name = bitOf s.phead name') :
    name = name' := by
  obtain ⟨p, -, hname, -, hp, -⟩ := bitOf_spec hs (hnames name h)
  obtain ⟨p', -, hname', -, hp', -⟩ := bitOf_spec hs (hnames name' h')
  rw [hbit, hp'] at hp
  rw [← hname, ← hname', Option.some.inj hp]

theorem twoPow_ne_zero {name : Word} (h : name ∈ names) :
    BitVec.twoPow 32 (bitOf s.phead name) ≠ 0 := by
  obtain ⟨-, -, -, -, -, hlt⟩ := bitOf_spec hs (hnames name h)
  intro hzero
  have hbit : (BitVec.twoPow 32 (bitOf s.phead name)).getLsbD (bitOf s.phead name) = true := by
    simp [hlt]
  rw [hzero] at hbit
  simp at hbit

theorem printerSet_of_named (set : BitVec 32) {rest : List Word}
    (hrest : ∀ name ∈ rest, name ∈ names) :
    printerSet set rest s = (some (Lib.flipped (bitOf s.phead) rest set), s) := by
  induction rest generalizing set with
  | nil => rfl
  | cons name rest ih =>
      have hname := hrest name (List.mem_cons_self ..)
      obtain ⟨p, hp, -⟩ := bitOf_spec hs (hnames name hname)
      simp only [printerSet, printerSetValue_of_named hp, if_pos (twoPow_ne_zero hs hnames hname)]
      rw [ih _ fun name' h => hrest name' (List.mem_cons_of_mem _ h), Lib.flipped_cons]

-- The set is the same whether one name is given or more.
theorem eligibleSet_of_named (hne : names ≠ []) :
    eligibleSet names s =
      if Lib.flipped (bitOf s.phead) names 0#32 = 0 then (none, errorMsg "printer not compatible" s)
      else (some (Lib.flipped (bitOf s.phead) names 0#32), s) := by
  rcases names with _ | ⟨name, _ | ⟨second, rest⟩⟩
  · exact absurd rfl hne
  · obtain ⟨p, hp, -⟩ := bitOf_spec hs (hnames name (List.mem_singleton_self _))
    have hset : Lib.flipped (bitOf s.phead) [name] 0#32 = BitVec.twoPow 32 (bitOf s.phead name) :=
      BitVec.zero_xor
    rw [eligibleSet, printerSetValue_of_named hp, hset]
  · rw [eligibleSet, printerSet_of_named hs hnames 0 fun _ h => h]
    · rfl
    · exact hne
    · intro arg2 h
      cases h

-- The job that the command makes, if it makes one.
theorem print_of_named (hne : names ≠ []) {file ext : Word} (hext : extension file = some ext)
    (htype : ext ∈ types s.list.head) :
    print file names s =
      if Lib.flipped (bitOf s.phead) names 0#32 = 0 then
        .ok (none, errorMsg "printer not compatible" s)
      else
        let job : Job := ⟨s.jobId, .queued, file, ext, Lib.flipped (bitOf s.phead) names 0#32, none⟩
        .ok (some s.jhead.length,
          { s with jhead := s.jhead ++ [job], jobId := s.jobId + 1, out :=
            s.out ++ [.jobStatus job] }) := by
  have hfound : ¬(searchList s.list.head ext).isNone = true := by
    rw [← searchList_isSome, ← Option.not_isNone, Bool.not_eq_true'] at htype
    rw [htype]
    exact Bool.false_ne_true
  simp only [print, hext, if_neg hfound, eligibleSet_of_named hs hnames hne]
  by_cases hzero : Lib.flipped (bitOf s.phead) names 0#32 = 0
  · have hmessage : delivered s (errorMsg "printer not compatible" s) =
        .ok (errorMsg "printer not compatible" s) :=
      delivered_print (List.forall_mem_nil _) _ rfl
    simp only [if_pos hzero, hmessage, Lib.ok_bind]
  · simp only [if_neg hzero, addJob, printJobStatus, List.getElem?_concat_length, Lib.ok_bind]
    rfl

-- The flipped bits are those of the names when each is given an odd number of times.
theorem flipped_bitOf_iff : (∀ i < 32, (Lib.flipped (bitOf s.phead) names 0#32).getLsbD i = true ↔
      ∃ name ∈ names, ∃ p, printerNamed s.phead name = some p ∧ p.id = i) ↔
    ∀ name ∈ names, names.count name % 2 = 1 := by
  have hcount (name : Word) (h : name ∈ names) :
      names.countP (fun name' => bitOf s.phead name' = bitOf s.phead name) = names.count name := by
    apply List.countP_congr
    intro name' h'
    simp only [decide_eq_true_eq, beq_iff_eq]
    exact ⟨bitOf_inj hs hnames h' h, fun heq => by rw [heq]⟩
  have hnamed (i : Nat) : (∃ name ∈ names, ∃ p, printerNamed s.phead name = some p ∧ p.id = i) ↔
      ∃ name ∈ names, bitOf s.phead name = i := by
    apply exists_congr
    intro name
    apply and_congr_right
    intro h
    obtain ⟨p, hp, -, hid, -⟩ := bitOf_spec hs (hnames name h)
    rw [hp, ← hid]
    exact ⟨fun ⟨_, hsome, hi⟩ => Option.some.inj hsome ▸ hi, fun hi => ⟨p, rfl, hi⟩⟩
  simp only [hnamed]
  rw [Lib.flipped_iff (bitOf s.phead) fun name h =>
    (bitOf_spec hs (hnames name h)).choose_spec.2.2.2.2]
  exact forall₂_congr fun name h => by rw [hcount name h]

end

theorem JobSettles.eligiblePrinters_eq {j j' : Job} (h : JobSettles j j') :
    j'.eligiblePrinters = j.eligiblePrinters := by
  rcases h with rfl | ⟨-, rfl⟩
  · rfl
  · rfl

-- The new job is the last one.
theorem eligiblePrinters_of_settles {jobs jobs' : List Job} {job job' : Job}
    (h : List.Forall₂ JobSettles (jobs ++ [job]) jobs')
    (h' : List.Forall₂ JobSettles (jobs ++ [job']) jobs') :
    job.eligiblePrinters = job'.eligiblePrinters := by
  obtain ⟨hlength, hjobs⟩ := List.forall₂_iff_get.mp h
  obtain ⟨-, hjobs'⟩ := List.forall₂_iff_get.mp h'
  have hlt : jobs.length < jobs'.length := by
    rw [← hlength, List.length_append]
    exact Nat.lt_succ_self _
  have hlast := hjobs jobs.length (by simp) hlt
  have hlast' := hjobs' jobs.length (by simp) hlt
  simp only [List.get_eq_getElem, List.getElem_concat_length] at hlast hlast'
  rw [← hlast.eligiblePrinters_eq, hlast'.eligiblePrinters_eq]

-- After every session, exactly the lists that name each printer an odd number of times give
-- the set of the printers that they name.
theorem eligibleRight_iff {forkError : Nat → Option ErrorText} {commands : List (List Word)}
    {s : State} {file ext : Word} {names : List Word}
    (hrun : session (unbounded forkError) commands .start = .ok s)
    (hext : extension file = some ext) (htype : ext ∈ types s.list.head) (hne : names ≠ [])
    (hnames : ∀ name ∈ names, ∃ p ∈ s.phead, p.name = name) :
    EligibleRight (unbounded forkError) file names s ↔
      ∀ name ∈ names, names.count name % 2 = 1 := by
  obtain ⟨hs, hprompt⟩ :=
    session_prompt (fun _ => rfl) (unbounded_ne_child forkError) hrun consistent_start
    (atPrompt_start _)
  have hprint := print_of_named hs hnames hne hext htype
  have hcommand : command (unbounded forkError) (ascii "print") (file :: names) s =
      printFile (unbounded forkError) (file :: names) s := rfl
  rw [← flipped_bitOf_iff hs hnames]
  unfold EligibleRight
  rw [hcommand]
  by_cases hzero : Lib.flipped (bitOf s.phead) names 0#32 = 0
  · have hrest : printFile (unbounded forkError) (file :: names) s =
        .ok (errorMsg "printer not compatible" s) := by
      rw [printFile, hprint, if_pos hzero]
      rfl
    refine iff_of_false ?_ fun hbits => ?_
    · rintro ⟨job, s', hrun', hjobs, -⟩
      rw [hrest] at hrun'
      obtain rfl := Except.ok.inj hrun'
      have hlength := hjobs.length_eq
      simp [errorMsg, State.print] at hlength
    · obtain ⟨name, hname⟩ := List.exists_mem_of_ne_nil names hne
      obtain ⟨p, hp, -, hid, -, hlt⟩ := bitOf_spec hs (hnames name hname)
      have hbit := (hbits _ hlt).mpr ⟨name, hname, p, hp, hid⟩
      rw [hzero] at hbit
      simp at hbit
  · rw [if_neg hzero] at hprint
    generalize hjob : (⟨s.jobId, .queued, file, ext, Lib.flipped (bitOf s.phead) names 0#32,
      none⟩ : Job) = job at hprint
    have hset : job.eligiblePrinters = Lib.flipped (bitOf s.phead) names 0#32 := by rw [← hjob]
    have hfile : job.fileName = file := by rw [← hjob]
    have hjobType : job.fileType = ext := by rw [← hjob]
    have hqueued : job.status = .queued := by rw [← hjob]
    obtain ⟨s', hrest, hsettles, -⟩ :=
      printFile_settles (fun _ => rfl) (unbounded_ne_child forkError)
      (hs.with_job (s.jobId + 1) (s.out ++ [.jobStatus job]) (by rw [hjobType]; exact htype))
        hprompt.idle hprint
      List.getElem?_concat_length hqueued
    rw [hrest]
    constructor
    · rintro ⟨job', t, hsame, hjobs, -, -, hbits⟩
      obtain rfl := Except.ok.inj hsame
      rwa [← hset, ← eligiblePrinters_of_settles hjobs hsettles.jobs]
    · intro hbits
      exact ⟨job, s', rfl, hsettles.jobs, hfile, by rw [hjobType, hext], by rwa [hset]⟩

-- A session that declares two printers.
def twoPrinters : List (List Word) :=
  [[ascii "type", ascii "pdf"], [ascii "printer", ascii "laser", ascii "pdf"],
    [ascii "printer", ascii "plotter", ascii "pdf"]]

theorem eligibleRight_of_two_printers : ∃ s, session
    (unbounded fun _ => none) twoPrinters .start = .ok s ∧
    EligibleRight (unbounded fun _ => none) (ascii "a.pdf") [ascii "plotter", ascii "laser"] s := by
  refine ⟨_, rfl, ?_⟩
  refine (@eligibleRight_iff (fun _ => none) twoPrinters _ _ _ _ rfl rfl ?_ ?_ ?_).mpr ?_
  · decide +kernel
  · decide +kernel
  · decide +kernel
  · decide +kernel

-- The second name takes the bit of the first one back, and there is no job.
theorem not_eligibleRight : ∃ s, session (unbounded fun _ => none) twoPrinters .start = .ok s ∧
    ¬EligibleRight (unbounded fun _ => none) (ascii "a.pdf") [ascii "laser", ascii "laser"] s := by
  refine ⟨_, rfl, ?_⟩
  rintro ⟨job, s', hrun, hjobs, -⟩
  obtain rfl := Except.ok.inj hrun
  have hnone : List.Forall₂ JobSettles [job] [] := hjobs
  cases hnone

end CSE320.Spooler
