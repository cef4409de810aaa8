import CSE320.Sfmm.Coalescing

namespace CSE320.Sfmm

open Lib (Steps)

variable (env : Sfutil)

-- The list of sizes and the lists of free blocks: each free block is in one list,
-- which is the one for its size, and the sizes increase.
structure FreeListsAre (s : State) (lists : List SizeList) : Prop where
  nodeRing : Lib.Ring s.nodeNext s.nodePrev (env.slot 0) (lists.map SizeList.node)
  nodeNodup : (env.slot 0 :: lists.map SizeList.node).Nodup
  nodeSizes : ∀ l ∈ lists, s.nodeSize l.node = l.size
  ring : ∀ l ∈ lists, Lib.Ring s.linkNext s.linkPrev (head l.node) l.members
  nodup : (lists.flatMap SizeList.members).Nodup
  free : ∀ x n, On lists x n ↔ FreeBlock env s x ∧ (s.info x).size = n
  increasing : Sorted lists

def FreeLists (s : State) : Prop := ∃ lists, FreeListsAre env s lists

instance (s : State) (size : Nat) : Decidable (RestKnown env s size) :=
  match h : fitOf env s size with
  | .ok (.best node) =>
    match hf : findSize s (s.nodeSize node - padding size) (s.nodes + 1) (s.nodeNext (env.slot 0))
      with
    | .ok none => .isFalse (by simp [RestKnown, h, hf])
    | .ok (some _) => .isTrue (by simp [RestKnown, h, hf])
    | .error _ => .isTrue (by simp [RestKnown, h, hf])
  | .ok (.exact _) => .isTrue (by simp only [RestKnown, h])
  | .ok .none => .isTrue (by simp only [RestKnown, h])
  | .error _ => .isTrue (by simp only [RestKnown, h])

instance (w : World) (op : Op) : Decidable (SizesOk env w op) :=
  match op with
  | .malloc size => inferInstanceAs (Decidable (size = 0 ∨
      if env.memStart = w.heap.memEnd then ¬Grows env w.heap ∨ freeBlockSize ≤ padding size
      else RestKnown env w.heap size))
  | .realloc _ _ => inferInstanceAs (Decidable True)
  | .free _ => inferInstanceAs (Decidable True)
  | .store _ _ _ => inferInstanceAs (Decidable True)

-- The sizes in the list of sizes increase.
def SizesIncrease (s : State) : Prop := ∃ lists, Listed env s lists ∧ Sorted lists

variable {env} {s : State} {blocks : List Blk} {epi : Info} {lists lists' : List SizeList}
  {mem : Nat → Nat} {ops : List Op} {w w' : World}

theorem Listed.head_nodup (hdoc : Documented env) (h : Listed env s lists) :
    (env.slot 0 :: lists.map SizeList.node).Nodup := by
  refine List.nodup_cons.mpr ⟨fun hmem => ?_, h.nodeNodup⟩
  obtain ⟨l, hl, he⟩ := List.mem_map.mp hmem
  obtain ⟨k, hk, -, hslot⟩ := h.nodeSlots l hl
  have hzero := slot_injective hdoc (hslot.symm.trans he)
  omega

-- The state determines the sizes.
theorem sizes_unique
    (hring : Lib.Ring s.nodeNext s.nodePrev (env.slot 0) (lists.map SizeList.node))
    (hring' : Lib.Ring s.nodeNext s.nodePrev (env.slot 0) (lists'.map SizeList.node))
    (hnodup : (env.slot 0 :: lists.map SizeList.node).Nodup)
    (hnodup' : (env.slot 0 :: lists'.map SizeList.node).Nodup)
    (hsizes : ∀ l ∈ lists, s.nodeSize l.node = l.size)
    (hsizes' : ∀ l ∈ lists', s.nodeSize l.node = l.size) : Sorted lists ↔ Sorted lists' := by
  have hnodes : lists.map SizeList.node = lists'.map SizeList.node :=
    Lib.chain_unique hring hring' (List.nodup_cons.mp hnodup).1 (List.nodup_cons.mp hnodup').1
  have hread {lists : List SizeList} (h : ∀ l ∈ lists, s.nodeSize l.node = l.size) :
      lists.map SizeList.size = (lists.map SizeList.node).map s.nodeSize := by
    rw [List.map_map]
    exact List.map_congr_left fun l hl => (h l hl).symm
  rw [Sorted, Sorted, hread hsizes, hread hsizes', hnodes]

theorem Listed.sizesIncrease (hdoc : Documented env) (h : Listed env s lists) :
    SizesIncrease env s ↔ Sorted lists := by
  constructor
  · rintro ⟨lists', h', hsorted⟩
    exact (sizes_unique h'.nodeRing h.nodeRing (h'.head_nodup hdoc) (h.head_nodup hdoc) h'.nodeSizes
      h.nodeSizes).mp hsorted
  · exact fun hsorted => ⟨lists, h, hsorted⟩

theorem Shows.freeLists (hdoc : Documented env) (h : Shows env s blocks epi lists []) :
    FreeLists env s ↔ Sorted lists := by
  have hnodup := h.listed.head_nodup hdoc
  constructor
  · rintro ⟨lists', h'⟩
    exact (sizes_unique h'.nodeRing h.listed.nodeRing h'.nodeNodup hnodup h'.nodeSizes
      h.listed.nodeSizes).mp h'.increasing
  · refine fun hsorted => ⟨lists, h.listed.nodeRing, hnodup, h.listed.nodeSizes, h.listed.ring,
      h.listed.nodup, fun x n => ?_, hsorted⟩
    rw [h.free, h.tiled.freeBlock_iff]
    simp

-- A heap without blocks has no lists.
theorem freeLists_empty (hdoc : Documented env) (hend : s.memEnd = env.memStart)
    (h : Listed env s []) :
    FreeLists env s := by
  refine ⟨[], h.nodeRing, h.head_nodup hdoc, h.nodeSizes, h.ring, h.nodup, fun x n => ?_,
    List.Pairwise.nil⟩
  refine iff_of_false (fun ⟨l, hl, _⟩ => absurd hl List.not_mem_nil) ?_
  rintro ⟨⟨⟨hwalk, hlt⟩, -⟩, -⟩
  have hge := hwalk.ge
  rw [hend] at hlt
  simp only [firstBlock] at hge
  omega

theorem Holds.freeLists (hdoc : Documented env) (h : Holds env (fun _ _ _ => True) w) :
    FreeLists env w.heap ↔ SizesIncrease env w.heap := by
  cases h with
  | empty hend hlisted _ =>
      exact iff_of_true (freeLists_empty hdoc hend hlisted) ⟨[], hlisted, List.Pairwise.nil⟩
  | heap hshows _ _ => rw [hshows.freeLists hdoc, hshows.listed.sizesIncrease hdoc]

-- A step puts no size behind a larger one, or the sizes do not increase any more.
theorem sizesIncrease_step {op : Op} (hdoc : Documented env) (hgood : Good env w op)
    (hexec : exec env w op = .ok w') (h : Holds env (fun _ _ _ => True) w) :
    SizesIncrease env w'.heap ↔ SizesOk env w op ∧ SizesIncrease env w.heap := by
  cases h with
  | empty hend hlisted hlive =>
      have hnow : SizesIncrease env w.heap := ⟨[], hlisted, List.Pairwise.nil⟩
      obtain ⟨w₁, heq, hcases⟩ := exec_first hdoc hend hlisted hlive hgood
      obtain rfl := Except.ok.inj (heq.symm.trans hexec)
      rw [and_iff_left hnow]
      rcases hcases with ⟨-, hlisted', -, hsizes⟩ | ⟨blocks', epi', lists', hshows, -, -, -, hsizes⟩
      · exact iff_of_true ⟨[], hlisted', List.Pairwise.nil⟩ hsizes
      · rw [hshows.listed.sizesIncrease hdoc, hsizes]
  | heap hshows howned _ =>
      rcases exec_ready hdoc hshows howned hgood with habort | ⟨w₁, blocks', epi', lists', heq, hm⟩
      · rw [habort] at hexec
        cases hexec
      · obtain rfl := Except.ok.inj (heq.symm.trans hexec)
        rw [hm.shows.listed.sizesIncrease hdoc, hshows.listed.sizesIncrease hdoc, hm.sorted]

theorem sizesIncrease_run (hdoc : Documented env) (hrun : Steps (exec env) (Good env) w ops w')
    (h : Holds env (fun _ _ _ => True) w) (hnow : SizesIncrease env w.heap) :
    SizesIncrease env w'.heap ↔
      Steps (exec env) (fun w op => Good env w op ∧ SizesOk env w op) w ops w' := by
  -- once the sizes do not increase they never do again, so the condition is on
  -- every step
  have hlost {v v' : World} {rest : List Op} (hrest : Steps (exec env) (Good env) v rest v')
      (hv : Holds env (fun _ _ _ => True) v) (hnot : ¬SizesIncrease env v.heap) :
      ¬SizesIncrease env v'.heap := by
    have hboth := hrest.invariant (fun v => Holds env (fun _ _ _ => True) v ∧
      ¬SizesIncrease env v.heap)
      (fun u op next hu hgood hstep => ⟨hu.1.step hdoc hgood (fun _ _ _ _ _ _ => trivial)
        (fun _ _ _ _ _ _ _ _ => trivial) hstep, fun hnext =>
          hu.2 ((sizesIncrease_step hdoc hgood hstep hu.1).mp hnext).2⟩) ⟨hv, hnot⟩
    exact hboth.2
  induction hrun with
  | nil v => exact iff_of_true hnow (.nil v)
  | @cons v next final op rest hgood hstep hrest ih =>
      have hstays : Holds env (fun _ _ _ => True) next := h.step hdoc hgood
        (fun _ _ _ _ _ _ => trivial) (fun _ _ _ _ _ _ _ _ => trivial) hstep
      have hsizes := sizesIncrease_step hdoc hgood hstep h
      rw [and_iff_left hnow] at hsizes
      by_cases hok : SizesOk env v op
      · refine (ih hstays (hsizes.mpr hok)).trans ?_
        constructor
        · exact fun hsteps => .cons ⟨hgood, hok⟩ hstep hsteps
        · rintro (_ | ⟨-, hstep', hsteps⟩)
          obtain rfl := Except.ok.inj (hstep'.symm.trans hstep)
          exact hsteps
      · refine iff_of_false (hlost hrest hstays (mt hsizes.mp hok)) ?_
        rintro (_ | ⟨⟨-, hok'⟩, -, -⟩)
        exact hok hok'

-- In every run of good calls the lists are as they should be at the end if and
-- only if no call has put a size behind a larger one.
theorem freeLists_iff (hdoc : Documented env)
    (hrun : Steps (exec env) (Good env) (World.start env mem) ops w) :
    FreeLists env w.heap ↔
      Steps (exec env) (fun w op => Good env w op ∧ SizesOk env w op)
        (World.start env mem) ops w := by
  have hholds : Holds env (fun _ _ _ => True) w := Holds.run hdoc (fun _ _ h => h)
    (fun _ _ _ _ _ _ _ _ _ => trivial) (fun _ _ _ _ _ _ _ _ _ _ _ _ => trivial) hrun
  rw [hholds.freeLists hdoc]
  exact sizesIncrease_run hdoc hrun (.empty rfl (listed_start mem) rfl) ⟨[], listed_start mem,
    List.Pairwise.nil⟩

-- A heap that cannot grow behind its first page.
def onePage : Sfutil := { smallHeap with memLimit := 8192 }

theorem onePage_documented : Documented onePage :=
  ⟨smallHeap_documented.aligned, smallHeap_documented.slotAligned, smallHeap_documented.slotAway,
    smallHeap_documented.slotApart, smallHeap_documented.adds⟩

-- Two requests that are larger than the page leave it as a free block, the only one in the
-- list of its size.
theorem freeLists_of_whole_page : ∃ w, Steps (exec onePage) (Good onePage)
    (World.start onePage fun _ => 0) [.malloc 5000, .malloc 6000, .malloc 0] w ∧
    w.heap.linkNext (head 32816) = 4136 ∧ (w.heap.info 4136).size = 4048 ∧
    FreeLists onePage w.heap := by
  obtain ⟨w, hrun, hw⟩ := run_of onePage (fun w op => Good onePage w op ∧ SizesOk onePage w op)
    (fun _ => 0) [.malloc 5000, .malloc 6000, .malloc 0]
    (fun w => (w.heap.linkNext (head 32816), (w.heap.info 4136).size)) (4136, 4048)
    (by decide +kernel)
  obtain ⟨hmember, hsize⟩ := Prod.mk.inj hw
  have hgood := hrun.weaken fun _ _ h => h.1
  exact ⟨w, hgood, hmember, hsize, (freeLists_iff onePage_documented hgood).mpr hrun⟩

-- The rest of the first block is put behind the size of the whole page.
theorem not_freeLists_of_first_split : Documented smallHeap ∧ ∃ w,
    Steps (exec smallHeap) Allowed (World.start smallHeap fun _ => 0) [.malloc 24] w ∧
      ¬FreeLists smallHeap w.heap := by
  obtain ⟨w, hrun, hw⟩ := run_of smallHeap Allowed (fun _ => 0) [.malloc 24]
    (fun w => (w.heap.nodeNext 32768, w.heap.nodeNext 32816, w.heap.nodeSize 32816,
      w.heap.nodeSize 32864))
    (32816, 32864, 4048, 4016) (by decide +kernel)
  simp only [Prod.mk.injEq] at hw
  obtain ⟨hhead, hnext, hfirst, hsecond⟩ := hw
  refine ⟨smallHeap_documented, w, hrun, ?_⟩
  rintro ⟨lists, h⟩
  have hring := h.nodeRing
  rw [Lib.Ring, show smallHeap.slot 0 = 32768 from rfl] at hring
  match lists, h, hring with
  | [], _, hring =>
      have hlink := (List.isChain_cons_cons.mp hring).1.1
      omega
  | [l], _, hring =>
      obtain ⟨hl, hrest⟩ := List.isChain_cons_cons.mp hring
      have hlast := (List.isChain_cons_cons.mp hrest).1.1
      rw [← hl.1, hhead, hnext] at hlast
      omega
  | l :: l' :: rest, h, hring =>
      obtain ⟨hl, hrest⟩ := List.isChain_cons_cons.mp hring
      have hl' := (List.isChain_cons_cons.mp hrest).1.1
      rw [← hl.1, hhead, hnext] at hl'
      have hlt : l.size < l'.size :=
        (List.pairwise_cons.mp h.increasing).1 _ (List.mem_cons_self)
      rw [← h.nodeSizes l (by simp), ← h.nodeSizes l' (by simp), ← hl.1, ← hl', hhead, hfirst,
        hsecond] at hlt
      omega

end CSE320.Sfmm
