import CSE320.Sfmm.Extension
import CSE320.Sfmm.Payload

namespace CSE320.Sfmm

open Lib (Steps)

variable (env : Sfutil)

-- What sf_malloc is to do for a request.
def Answers (w : World) (size : Nat) : Prop :=
  ∃ ptr heap, sfMalloc env w.heap size = .ok (ptr, heap) ∧
    if ptr = 0 then
      heap.errno = .enomem ∧
        ∀ l ∈ w.live, heap.info (l.ptr - 8) = w.heap.info (l.ptr - 8) ∧ SameBytes w.heap heap l
    else
      size + 8 ≤ (heap.info (ptr - 8)).size ∧ (heap.info (ptr - 8)).requestedSize.toNat = size

-- The sizes for which the new pages fit an int, and leave at least 32 bytes.
def LeavesRest (paddSize : Nat) : Prop :=
  paddSize ≤ 2 ^ 31 - 4096 ∧ paddSize % 4096 ≠ 0 ∧ paddSize % 4096 ≠ 4080

instance (paddSize : Nat) : Decidable (LeavesRest paddSize) := inferInstanceAs (Decidable (_ ∧ _))

-- A heap that is extended either gets too few pages, or starts a block on a new one.
def GrowthMeets (s : State) (paddSize : Nat) : Prop :=
  ¬Extends env s (pagesFor (extensionStart s).2 paddSize) ∨
    (s.info (s.memEnd - 8)).prevAllocated = false ∧ LeavesRest paddSize

-- The padded size does not wrap, and if no block is large enough the extension works.
def RequestMeets (s : State) (size : Nat) : Prop :=
  size ≤ 2 ^ 64 - 24 ∧
    if env.memStart = s.memEnd then
      ¬Grows env s ∨ padding size ≤ freeBlockSize ∨
        ¬Extends env (grown s 1) (pagesFor 0 (padding size)) ∨
        LeavesRest (padding size)
    else
      fitOf env s size = .ok .none → GrowthMeets env s (padding size)

variable {env} {s s' : State} {blocks : List Blk} {epi : Info} {lists : List SizeList} {w : World}
  {size p x ptr : Nat}

-- The result of a call that does not touch what is allocated.
def Answered (s s' : State) (size ptr : Nat) : Prop :=
  if ptr = 0 then s'.errno = .enomem ∧ s'.mem = s.mem
  else size + 8 ≤ (s'.info (ptr - 8)).size ∧ (s'.info (ptr - 8)).requestedSize.toNat = size

theorem answered_of {i : Info} (hx : s'.info x = i) (hsize : i.size = p)
    (hreq : i.requestedSize = BitVec.ofNat 32 size) (hpad : size + 8 ≤ p) (hlt : p < 2 ^ 32) :
    Answered s s' size (x + 8) := by
  rw [Answered, if_neg (by omega), Nat.add_sub_cancel, hx, hsize, hreq, BitVec.toNat_ofNat]
  exact ⟨hpad, Nat.mod_eq_of_lt (by omega)⟩

theorem extendHeap_refused (size : Nat) (hext : ¬Extends env s (pagesFor (extensionStart s).2 p)) :
    ∃ s', extendHeap env s size p = .ok (.failed, s') ∧ s'.mem = s.mem ∧ s'.errno = .enomem := by
  have hfuel : pagesFor (extensionStart s).2 p < p + 1 := by
    rw [pagesFor]
    omega
  obtain ⟨s', hexact, hmem, herrno⟩ := (exactSize_spec hfuel).2 hext
  refine ⟨s', ?_, hmem, herrno⟩
  rw [extendHeap_eq, hexact]
  rfl

-- The block on the new pages is split.
theorem extension_answers (hdoc : Documented env) (haway : Away env)
    (h : Shows env s blocks epi lists []) (hsize : size ≤ 2 ^ 64 - 24)
    (hbit : (s.info (s.memEnd - 8)).prevAllocated = false) (hrest : LeavesRest (padding size))
    (hext : Extends env s (pagesFor 0 (padding size))) :
    ∃ node s₁ s', extendHeap env s size (padding size) = .ok (.found node, s₁) ∧
      splitBlock env s₁ size (padding size) node = .ok (s.memEnd + 8, s') ∧
        Answered s s' size (s.memEnd + 8) := by
  obtain ⟨hmin, hmod, hpad, -⟩ := padding_spec hsize
  obtain ⟨hsmall, hpage, hlast⟩ := hrest
  generalize padding size = p at *
  obtain ⟨node, s₁, nodes, heq, hhead, hwalk, howners, hinfo⟩ :=
    extendHeap_found hdoc haway h.listed h.pos
    h.tiled.memEnd hbit hext (by omega) hsmall hpage size
  obtain ⟨hlow, hhigh, -⟩ := pagesFor_spec (show 0 < p by omega) hpage
  have hpages : 0 < pagesFor 0 p := by
    by_contra hzero
    rw [Nat.eq_zero_of_not_pos hzero] at hlow
    omega
  have hlimit := hext.limit hpages
  have hnmod : 4096 * pagesFor 0 p % 4096 = 0 := Nat.mul_mod_right 4096 _
  generalize 4096 * pagesFor 0 p = n at *
  have hend := h.tiled.memEnd
  have haligned := hdoc.aligned
  have hslots (k : Nat) : s.memEnd + n ≤ env.slot k ∨ env.slot k + 48 ≤ s.memEnd := by
    have hslot := haway.slots k
    omega
  have hx : Beyond env s.memEnd := by
    refine ⟨by omega, by omega, fun k => ?_, ?_⟩
    · have hslot := hslots k
      omega
    · have hframe := haway.frame
      omega
  have hextSize : (extInfo size n).size = n :=
    Info.size_blocks (by omega) (by omega) ⟨true, true, 0, 0, BitVec.ofNat 32 size⟩
  obtain ⟨-, hnodes, hsame, hself, -, -⟩ :=
    cutTags_spec env size hinfo hextSize (show 0 < p by omega) (by omega)
  have hslot (k i : Nat) (hi : i < 48) : (cutBlock env s₁ size p s.memEnd).mem (env.slot k + i) =
      (s₁.unlink s.memEnd).mem (env.slot k + i) := by
    have hslot := hslots k
    exact hsame _ (by omega)
  have hfirst (m : Nat) (hm : m ∈ nodes) :
      (cutBlock env s₁ size p s.memEnd).linkNext (head m) + 16 ≠ s.memEnd := by
    obtain ⟨k, rfl⟩ := hwalk.slots m hm
    have hlink : (cutBlock env s₁ size p s.memEnd).linkNext (head (env.slot k)) =
        (s₁.unlink s.memEnd).linkNext (head (env.slot k)) := hslot k 16 (by omega)
    rw [hlink]
    exact (hx.owner (howners _ hm)).2.1
  have hwalk' : Walkable env (cutBlock env s₁ size p s.memEnd) nodes :=
    hwalk.congr hnodes fun k i hi => hslot k i (by omega)
  obtain ⟨s', hsplit, hkeep⟩ := splitBlock_info hdoc hhead hwalk'
    (fun k => by have hslot := hslots k; omega) (fun k => by have hslot := hslots k; omega) hfirst
  refine ⟨node, s₁, s', heq, hsplit, ?_⟩
  rw [cutBlock_eq, hself] at hkeep
  exact answered_of hkeep (handed_size hmod (by omega) _) (handed_requested _ _ _) hpad (by omega)

theorem allocate_answers (hdoc : Documented env) (haway : Away env)
    (h : Shows env s blocks epi lists []) (hsize : size ≤ 2 ^ 64 - 24)
    (hgrowth : fitOf env s size = .ok .none → GrowthMeets env s (padding size)) :
    ∃ ptr s', allocate env s size = .ok (ptr, s') ∧ Answered s s' size ptr := by
  obtain ⟨hmin, hmod, hpad, -⟩ := padding_spec hsize
  obtain ⟨fit, hsearch, hfound⟩ := h.fit hdoc size
  rw [hsearch] at hgrowth
  rw [fitOf] at hsearch
  rw [allocate, hsearch, Lib.ok_bind]
  cases fit with
  | exact node =>
      obtain ⟨l, hl, rfl, hlsize, hne⟩ := hfound
      obtain ⟨_, rest, pre, b, post, hm, rfl, rfl, hb, -⟩ := h.first_member hl hne
      have hbound := h.tiled.bounds (at_middle (firstBlock env) pre post b)
      obtain ⟨s', blocks', epi', lists', heq, hshows, -, -, -, hdelivers⟩ :=
        exactFit_spec hdoc h rfl hl hm size
      rw [hlsize] at heq hb hdelivers
      obtain ⟨c, hc, hlabel⟩ := hdelivers.given (by omega)
      rw [Nat.add_sub_cancel] at hc
      obtain ⟨hcsize, hcreq, -⟩ := hshows.info_of_label hc hlabel
      exact ⟨_, s', congrArg Except.ok heq, answered_of rfl hcsize hcreq hpad (by omega)⟩
  | best node =>
      obtain ⟨l, hl, rfl, hlsize, hne⟩ := hfound
      obtain ⟨_, rest, pre, b, post, hm, rfl, rfl, hb, -⟩ := h.first_member hl hne
      have hbound := h.tiled.bounds (at_middle (firstBlock env) pre post b)
      have hbmod : b.size % 16 = 0 := Info.size_mod b.info
      obtain ⟨s', heq, hinfo⟩ := splitBlock_fits hdoc h rfl hl hm size hmin (by omega)
      exact ⟨_, s', heq, answered_of hinfo (handed_size hmod (by omega) _) (handed_requested _ _ _)
        hpad (by omega)⟩
  | none =>
      by_cases hext : Extends env s (pagesFor (extensionStart s).2 (padding size))
      · obtain ⟨hbit, hrest⟩ := (hgrowth rfl).resolve_left (not_not_intro hext)
        have hstart : (extensionStart s).2 = 0 := by
          rw [extensionStart, hbit]
          rfl
        rw [hstart] at hext
        obtain ⟨node, s₁, s', heq, hsplit, hanswer⟩ :=
          extension_answers hdoc haway h hsize hbit hrest hext
        simp only [heq]
        exact ⟨_, s', hsplit, hanswer⟩
      · obtain ⟨s', heq, hmem, herrno⟩ := extendHeap_refused size hext
        have hanswer : Answered s s' size 0 := by
          rw [Answered, if_pos rfl]
          exact ⟨herrno, hmem⟩
        simp only [heq]
        exact ⟨0, s', rfl, hanswer⟩

theorem answers_of {heap : State} (heq : sfMalloc env w.heap size = .ok (ptr, heap))
    (h : Answered w.heap heap size ptr ∨ ptr = 0 ∧ heap.errno = .enomem ∧ w.live = []) :
    Answers env w size := by
  refine ⟨ptr, heap, heq, ?_⟩
  rcases h with h | ⟨rfl, herrno, hlive⟩
  · rw [Answered] at h
    split at h
    · rename_i hnull
      rw [if_pos hnull]
      refine ⟨h.1, fun l _ => ⟨info_congr (congrFun h.2 _), fun i _ => ?_⟩⟩
      rw [byteAt, byteAt, h.2]
    · rename_i hnull
      rw [if_neg hnull]
      exact h
  · rw [if_pos rfl, hlive]
    exact ⟨herrno, List.forall_mem_nil _⟩

-- The first page makes the first block, and a larger request needs further pages.
theorem first_answers (hdoc : Documented env) (haway : Away env)
    (hend : w.heap.memEnd = env.memStart) (hlisted : Listed env w.heap []) (hlive : w.live = [])
    (hne : size ≠ 0) (hmeets : RequestMeets env w.heap size) :
    Answers env w size := by
  obtain ⟨hsize, hfirst⟩ := hmeets
  rw [if_pos hend.symm] at hfirst
  by_cases hgrows : Grows env w.heap
  · obtain ⟨s₁, node, hinit, hcalls, hshows⟩ := initMem_grows hdoc hend hlisted hgrows
    have hend₁ : s₁.memEnd = w.heap.memEnd + 4096 := by rw [hshows.tiled.memEnd, hend]
    have hbit : (s₁.info (s₁.memEnd - 8)).prevAllocated = false := by
      rw [hshows.memEnd, hshows.tiled.epilogue]
      rfl
    have hstart : (extensionStart s₁).2 = 0 := by
      rw [extensionStart, hbit]
      rfl
    have hgrowth : fitOf env s₁ size = .ok .none → GrowthMeets env s₁ (padding size) := by
      intro hnone
      obtain ⟨fit, hfit, hfound⟩ := hshows.fit hdoc size
      obtain rfl := Except.ok.inj (hfit.symm.trans hnone)
      rcases hfirst with hno | hsmall | hext | hrest
      · exact absurd hgrows hno
      · cases hfound _ List.mem_cons_self hsmall
      · refine Or.inl ?_
        rw [hstart]
        simpa only [Extends, grown, hcalls, hend₁, Nat.mul_one] using hext
      · exact Or.inr ⟨hbit, hrest⟩
    obtain ⟨ptr, s', heq, hanswer⟩ := allocate_answers hdoc haway hshows hsize hgrowth
    have hcall : sfMalloc env w.heap size = .ok (ptr, s') := by
      rw [sfMalloc, if_neg hne, if_pos hend.symm, hinit]
      exact heq
    refine answers_of hcall ?_
    by_cases hnull : ptr = 0
    · subst hnull
      exact Or.inr ⟨rfl, ((if_pos rfl).mp hanswer).1, hlive⟩
    · rw [Answered, if_neg hnull] at hanswer ⊢
      exact Or.inl hanswer
  · have hgrow : sfMemGrow env w.heap =
        (none, { w.heap with growCalls := w.heap.growCalls + 1, errno := .enomem }) :=
      if_neg hgrows
    have hcall : sfMalloc env w.heap size =
        .ok (0, { w.heap with growCalls := w.heap.growCalls + 1, errno := .enomem }) := by
      rw [sfMalloc, if_neg hne, if_pos hend.symm, initMem, hgrow]
    exact answers_of hcall (Or.inr ⟨rfl, rfl, hlive⟩)

-- In every state that good calls lead to.
theorem answers_of_run (hdoc : Documented env) (haway : Away env) {mem : Nat → Nat} {ops : List Op}
    (hrun : Steps (exec env) (Good env) (World.start env mem) ops w) (hne : size ≠ 0)
    (hmeets : RequestMeets env w.heap size) : Answers env w size := by
  obtain ⟨hholds, -⟩ := requested_of_run hdoc hrun
  cases hholds with
  | empty hend hlisted hlive => exact first_answers hdoc haway hend hlisted hlive hne hmeets
  | heap h _ _ =>
      obtain ⟨hsize, hgrowth⟩ := hmeets
      have hthere : env.memStart ≠ w.heap.memEnd := by
        rw [h.tiled.memEnd]
        omega
      rw [if_neg hthere] at hgrowth
      obtain ⟨ptr, s', heq, hanswer⟩ := allocate_answers hdoc haway h hsize hgrowth
      have hcall : sfMalloc env w.heap size = .ok (ptr, s') := by
        rw [sfMalloc, if_neg hne, if_neg hthere, heq]
      exact answers_of hcall (Or.inl hanswer)

theorem smallHeap_away : Away smallHeap := by
  refine ⟨fun k => ?_, by decide, fun k => ?_⟩
  · show 32768 + 48 * k + 48 ≤ 4096 ∨ 20480 ≤ 32768 + 48 * k
    omega
  · show 24576 + 96 ≤ 32768 + 48 * k ∨ 32768 + 48 * k + 48 ≤ 24576
    omega

-- A request for which two more pages are made.
theorem answers_of_extension : ∃ w, Steps (exec smallHeap) (Good smallHeap)
    (World.start smallHeap fun _ => 0)
    [.malloc 24] w ∧ Answers smallHeap w 5000 := by
  obtain ⟨w, hrun, hw⟩ := run_of smallHeap (Good smallHeap) (fun _ => 0) [.malloc 24]
    (fun w => (w.heap.memEnd, (w.heap.info 8184).prevAllocated)) (8192, false) (by decide +kernel)
  obtain ⟨hend, hbit⟩ := Prod.mk.inj hw
  refine ⟨w, hrun, answers_of_run smallHeap_documented smallHeap_away hrun (by decide)
    ⟨by decide, ?_⟩⟩
  rw [hend, if_neg (by decide)]
  exact fun _ => Or.inr ⟨by rw [hend]; exact hbit, by decide⟩

-- The sum with the header wraps, and a block of 32 bytes is handed out.
theorem not_answers_of_largest : Documented smallHeap ∧ Away smallHeap ∧
    ∃ w, Steps (exec smallHeap) (Good smallHeap) (World.start smallHeap fun _ => 0) [.malloc 24] w ∧
      ¬Answers smallHeap w (2 ^ 64 - 1) := by
  obtain ⟨w, hrun, hw⟩ := run_of smallHeap (Good smallHeap) (fun _ => 0) [.malloc 24]
    (fun w => (sfMalloc smallHeap w.heap (2 ^ 64 - 1)).toOption.map fun r =>
      (r.1, (r.2.info 4168).size))
    (some (4176, 32)) (by decide +kernel)
  refine ⟨smallHeap_documented, smallHeap_away, w, hrun, fun ⟨ptr, heap, heq, hanswer⟩ => ?_⟩
  rw [heq] at hw
  obtain ⟨rfl, hsize⟩ := Prod.mk.inj (Option.some.inj hw)
  rw [if_neg (by decide)] at hanswer
  have hle := hanswer.1
  simp only [Nat.reduceSub, hsize] at hle
  omega

end CSE320.Sfmm
