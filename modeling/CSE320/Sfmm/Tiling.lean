import CSE320.Sfmm.Safety

namespace CSE320.Sfmm

open Lib (Steps)

variable (env : Sfutil)

-- The walk from the end of the prologue tiles the heap, and the boundary tags say
-- what they should.
structure Tiling (s : State) : Prop where
  reaches : Walk env s (s.memEnd - 8)
  within : ∀ a, Walk env s a → a ≤ s.memEnd - 8
  sized : ∀ a, IsBlock env s a → 32 ≤ (s.info a).size ∧ (s.info a).size % 16 = 0
  footer : ∀ a, FreeBlock env s a → (s.info (a + (s.info a).size - 8)).blockSize =
    (s.info a).blockSize ∧
    (s.info (a + (s.info a).size - 8)).allocated = (s.info a).allocated ∧
    (s.info (a + (s.info a).size - 8)).prevAllocated = (s.info a).prevAllocated
  first : (s.info (firstBlock env)).prevAllocated = true
  next : ∀ a, IsBlock env s a → (s.info (a + (s.info a).size)).prevAllocated = (s.info a).allocated

instance (w : World) (op : Op) : Decidable (TagsOk env w op) :=
  match op with
  | .malloc size => inferInstanceAs (Decidable (size = 0 ∨
      if env.memStart = w.heap.memEnd then ¬Grows env w.heap ∨ padding size + 32 ≤ freeBlockSize
      else ExactAtEnd env w.heap size))
  | .realloc ptr size => inferInstanceAs (Decidable (CutInside env w.heap ptr size))
  | .free _ => inferInstanceAs (Decidable True)
  | .store _ _ _ => inferInstanceAs (Decidable True)

variable {env} {s : State} {blocks : List Blk} {epi : Info} {lists : List SizeList}
  {mem : Nat → Nat} {ops : List Op} {w : World}

-- The bit behind a block.
theorem Coherent.behind {p : Bool} {pre post : List Blk} {b : Blk}
    (h : Coherent p (pre ++ b :: post) epi) :
    (nextInfo post epi).prevAllocated = b.info.allocated := by
  have hprev := (prevIn_append.mp h.prev).2.2
  have hepi := h.epilogue
  rw [allocEnd_append, allocEnd] at hepi
  cases post with
  | nil => exact hepi
  | cons c rest => exact hprev.1

theorem Shows.tiling (h : Shows env s blocks epi lists []) (hcoh : Coherent true blocks epi) :
    Tiling env s := by
  have hend := h.memEnd
  refine ⟨?_, fun a ha => ?_, fun a ha => ?_, fun a ha => ?_, ?_, fun a ha => ?_⟩
  · rw [hend]
    exact h.tiled.walk_epilogue
  · rw [hend]
    rcases h.tiled.walk ha with ⟨b, hb⟩ | rfl
    · have hbound := h.tiled.bounds hb
      omega
    · exact Nat.le_refl _
  · obtain ⟨b, hb, hinfo⟩ := h.tiled.isBlock ha
    have hsized : 32 ≤ b.info.size := (h.tiled.bounds hb).2.2
    rw [hinfo]
    exact ⟨hsized, Info.size_mod b.info⟩
  · obtain ⟨b, hb, hinfo⟩ := h.tiled.isBlock ha.1
    have hfree := ha.2
    rw [hinfo] at hfree ⊢
    have hfoot : s.info (a + b.info.size - 8) = b.foot := h.tiled.footer a b hb hfree
    rw [hfoot]
    obtain ⟨hsize, halloc, hprev⟩ := hcoh.feet b hb.mem hfree
    exact ⟨hsize, halloc.trans hfree.symm, hprev⟩
  · cases blocks with
    | nil =>
        have ht := h.tiled.total
        simp at ht
    | cons b rest =>
        rw [h.tiled.header _ b (Or.inl ⟨rfl, rfl⟩)]
        exact hcoh.prev.1
  · obtain ⟨b, hb, hinfo⟩ := h.tiled.isBlock ha
    obtain ⟨pre, post, rfl, rfl⟩ := hb.split
    rw [hinfo]
    have hbehind : s.info (firstBlock env + total pre + b.info.size) = nextInfo post epi :=
      h.tiled.info_behind
    rw [hbehind]
    exact hcoh.behind

-- In every run of good calls that also keep the tags right, the blocks tile the
-- heap after each call, once there is a heap.
theorem tiling_of_run (hdoc : Documented env)
    (hrun : Steps (exec env) (fun w op => Good env w op ∧ TagsOk env w op)
      (World.start env mem) ops w) :
    w.heap.memEnd = env.memStart ∨ Tiling env w.heap := by
  have hholds : Holds env (fun blocks epi _ => Coherent true blocks epi) w :=
    Holds.run hdoc (fun _ _ h => h.1) (fun _ _ _ _ _ hguard _ htags _ => htags hguard.2)
      (fun _ _ _ _ _ _ _ _ _ hguard hcoh hmoves => hmoves.coherent hguard.2 hcoh) hrun
  cases hholds with
  | empty hend _ _ => exact Or.inl hend
  | heap hshows _ hcoh => exact Or.inr (hshows.tiling hcoh)

theorem tiling_of_mixed_calls : ∃ w, Steps (exec smallHeap)
    (fun w op => Good smallHeap w op ∧ TagsOk smallHeap w op) (World.start smallHeap fun _ => 0)
    [.malloc 24, .malloc 100, .store 4144 3 255, .free 4144, .realloc 4176 40, .free 4176] w ∧
    Tiling smallHeap w.heap := by
  obtain ⟨w, hrun, hend⟩ :=
    run_of smallHeap (fun w op => Good smallHeap w op ∧ TagsOk smallHeap w op)
    (fun _ => 0) [.malloc 24, .malloc 100, .store 4144 3 255, .free 4144,
      .realloc 4176 40, .free 4176]
    (fun w => w.heap.memEnd) 8192 (by decide +kernel)
  rcases tiling_of_run smallHeap_documented hrun with hempty | htiling
  · have hne : (8192 : Nat) = 4096 := hend.symm.trans hempty
    omega
  · exact ⟨w, hrun, htiling⟩

-- The first request fills the page: the bit of the first block is never set.
theorem not_tiling_of_whole_page : Documented smallHeap ∧ ∃ w,
    Steps (exec smallHeap) Allowed (World.start smallHeap fun _ => 0) [.malloc 4040] w ∧
      w.heap.memEnd ≠ smallHeap.memStart ∧ ¬Tiling smallHeap w.heap := by
  obtain ⟨w, hrun, hw⟩ := run_of smallHeap Allowed (fun _ => 0) [.malloc 4040]
    (fun w => (w.heap.memEnd, (w.heap.info 4136).prevAllocated)) (8192, false) (by decide +kernel)
  obtain ⟨hend, hbit⟩ := Prod.mk.inj hw
  refine ⟨smallHeap_documented, w, hrun, ?_, fun htiling => ?_⟩
  · rw [hend]
    decide
  · have hfirst : (w.heap.info 4136).prevAllocated = true := htiling.first
    rw [hbit] at hfirst
    cases hfirst

end CSE320.Sfmm
