import CSE320.Sfmm.Exec

namespace CSE320.Sfmm

open Lib (Steps)

variable (env : Sfutil)

-- What holds between the calls: the heap is empty, or it has a layout with some
-- property.
inductive Holds (prop : List Blk → Info → List SizeList → Prop) (w : World) : Prop
  | empty (hend : w.heap.memEnd = env.memStart) (hlisted : Listed env w.heap [])
      (hlive : w.live = [])
  | heap {blocks : List Blk} {epi : Info} {lists : List SizeList}
      (hshows : Shows env w.heap blocks epi lists []) (howned : Owned env w blocks)
      (hprop : prop blocks epi lists)

variable {env} {prop : List Blk → Info → List SizeList → Prop} {guard : World → Op → Prop}
  {mem : Nat → Nat} {ops : List Op} {w w' : World}

theorem listed_start (mem : Nat → Nat) : Listed env (start env mem) [] := by
  have hring : Lib.Ring (start env mem).nodeNext (start env mem).nodePrev (env.slot 0) [] := by
    refine .cons_cons ⟨?_, ?_⟩ (.singleton _)
    · simp [start, State.nodeNext]
    · simp [start, State.nodePrev]
  refine ⟨?_, hring, rfl, List.forall_mem_nil _, List.nodup_nil, List.forall_mem_nil _,
    List.forall_mem_nil _, List.forall_mem_nil _, List.nodup_nil⟩
  simp [start, State.nodeSize]

-- One step, and then a run: the property holds of a new heap and is kept by the
-- steps on a heap that is there.
theorem Holds.step {op : Op} (hdoc : Documented env) (hgood : Good env w op)
    (hfirst : ∀ blocks epi lists, NoPair blocks → (TagsOk env w op → Coherent true blocks epi) →
      (SizesOk env w op ↔ Sorted lists) → prop blocks epi lists)
    (hmoves : ∀ blocks epi lists blocks' epi' lists', prop blocks epi lists →
      Moves env w w' op blocks epi lists blocks' epi' lists' → prop blocks' epi' lists')
    (hexec : exec env w op = .ok w') (h : Holds env prop w) : Holds env prop w' := by
  cases h with
  | empty hend hlisted hlive =>
      obtain ⟨w₁, heq, hcases⟩ := exec_first hdoc hend hlisted hlive hgood
      obtain rfl := Except.ok.inj (heq.symm.trans hexec)
      rcases hcases with ⟨hend', hlisted', hlive', -⟩ |
        ⟨blocks', epi', lists', hshows, howned, hpair, htags, hsizes⟩
      · exact .empty hend' hlisted' hlive'
      · exact .heap hshows howned (hfirst _ _ _ hpair htags hsizes)
  | heap hshows howned hprop =>
      rcases exec_ready hdoc hshows howned hgood with habort | ⟨w₁, blocks', epi', lists', heq, hm⟩
      · rw [habort] at hexec
        cases hexec
      · obtain rfl := Except.ok.inj (heq.symm.trans hexec)
        exact .heap hm.shows hm.owned (hmoves _ _ _ _ _ _ hprop hm)

theorem Holds.run (hdoc : Documented env) (hgood : ∀ w op, guard w op → Good env w op)
    (hfirst : ∀ w op blocks epi lists, guard w op → NoPair blocks →
      (TagsOk env w op → Coherent true blocks epi) → (SizesOk env w op ↔ Sorted lists) →
      prop blocks epi lists)
    (hmoves : ∀ w w' op blocks epi lists blocks' epi' lists', guard w op → prop blocks epi lists →
      Moves env w w' op blocks epi lists blocks' epi' lists' → prop blocks' epi' lists')
    (hrun : Steps (exec env) guard (World.start env mem) ops w) : Holds env prop w := by
  refine hrun.invariant (Holds env prop) (fun v op next hv hguard hexec => ?_)
    (.empty rfl (listed_start mem) rfl)
  exact Holds.step hdoc (hgood v op hguard)
    (fun blocks epi lists => hfirst v op blocks epi lists hguard)
    (fun blocks epi lists blocks' epi' lists' =>
      hmoves v next op blocks epi lists blocks' epi' lists' hguard)
    hexec hv

-- In every run of good calls the heap is safe after each call. A good call
-- returns, unless sf_free or sf_realloc rejects the pointer with abort.
theorem heap_safe (hdoc : Documented env)
    (hrun : Steps (exec env) (Good env) (World.start env mem) ops w) :
    HeapSafe env w ∧ ∀ op, Good env w op →
      (∃ w', exec env w op = .ok w') ∨ exec env w op = .error .abort := by
  have hholds : Holds env (fun _ _ _ => True) w := Holds.run hdoc (fun _ _ h => h)
    (fun _ _ _ _ _ _ _ _ _ => trivial) (fun _ _ _ _ _ _ _ _ _ _ _ _ => trivial) hrun
  cases hholds with
  | empty hend hlisted hlive =>
      refine ⟨⟨?_, ?_, ?_, ?_⟩, fun op hop => ?_⟩
      · simp [hlive]
      · simp [hlive]
      · simp [hlive]
      · simp [hlive]
      · obtain ⟨w', heq, -⟩ := exec_first hdoc hend hlisted hlive hop
        exact Or.inl ⟨w', heq⟩
  | heap hshows howned _ =>
      refine ⟨hshows.heapSafe hdoc howned, fun op hop => ?_⟩
      rcases exec_ready hdoc hshows howned hop with habort | ⟨w', _, _, _, heq, -⟩
      · exact Or.inr habort
      · exact Or.inl ⟨w', heq⟩

-- A heap of four pages below the nodes.
def smallHeap : Sfutil where
  memStart := 4096
  memLimit := 20480
  slot := fun k => 32768 + 48 * k
  frame := 24576
  grows := fun _ => true
  adds := fun _ => true

theorem smallHeap_documented : Documented smallHeap := by
  refine ⟨by decide, fun k => ?_, fun k => ?_, fun j k hjk => ?_, fun _ => rfl⟩
  · show (32768 + 48 * k) % 8 = 0
    omega
  · show 32768 + 48 * k + 48 ≤ 4096 ∨ 4096 + 4096 ≤ 32768 + 48 * k
    omega
  · show 32768 + 48 * j + 48 ≤ 32768 + 48 * k ∨ 32768 + 48 * k + 48 ≤ 32768 + 48 * j
    omega

-- A run of which something is known at the end.
theorem run_of {α : Type} (env : Sfutil) (guard : World → Op → Prop)
    [∀ w op, Decidable (guard w op)] (mem : Nat → Nat) (ops : List Op) (f : World → α) (v : α)
    (h : (Lib.checkedRun (exec env) guard (World.start env mem) ops).map f = some v) :
    ∃ w, Steps (exec env) guard (World.start env mem) ops w ∧ f w = v := by
  obtain ⟨w, hw, hv⟩ := Option.map_eq_some_iff.mp h
  exact ⟨w, .of_checkedRun hw, hv⟩

-- Splits, a store, a free block, a shrunk block and an exact fit.
theorem heap_safe_of_mixed_calls : ∃ w, Steps (exec smallHeap) (Good smallHeap)
    (World.start smallHeap fun _ => 0)
    [.malloc 24, .malloc 100, .store 4144 3 255, .free 4144, .realloc 4176 40, .malloc 20] w ∧
    w.live = [⟨4144, 20⟩, ⟨4176, 40⟩] ∧ HeapSafe smallHeap w := by
  obtain ⟨w, hrun, hlive⟩ := run_of smallHeap (Good smallHeap) (fun _ => 0)
    [.malloc 24, .malloc 100, .store 4144 3 255, .free 4144, .realloc 4176 40,
      .malloc 20] World.live
    [⟨4144, 20⟩, ⟨4176, 40⟩] (by decide +kernel)
  exact ⟨w, hrun, hlive, (heap_safe smallHeap_documented hrun).1⟩

-- The first request is larger than a page: the block starts behind the old end of
-- the heap, and the pointer is not aligned.
theorem heap_unsafe_of_large_request : Documented smallHeap ∧ ∃ w,
    Steps (exec smallHeap) Allowed (World.start smallHeap fun _ => 0) [.malloc 5000] w ∧
      ¬HeapSafe smallHeap w := by
  obtain ⟨w, hrun, hlive⟩ := run_of smallHeap Allowed (fun _ => 0) [.malloc 5000] World.live
    [⟨8200, 5000⟩] (by decide +kernel)
  refine ⟨smallHeap_documented, w, hrun, fun hsafe => ?_⟩
  have haligned := hsafe.aligned ⟨8200, 5000⟩ (by rw [hlive]; exact List.mem_cons_self)
  simp at haligned

end CSE320.Sfmm
