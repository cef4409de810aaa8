import CSE320.Sfmm.Safety

namespace CSE320.Sfmm

open Lib (Steps)

variable (env : Sfutil)

-- No two adjacent blocks of the heap are free.
def NoFreePair (s : State) : Prop :=
  ∀ a, FreeBlock env s a → ¬FreeBlock env s (a + (s.info a).size)

-- The free block that holds the freed block h spans h and those of its two
-- neighbours that were free before.
def Spans (s s' : State) (h : Nat) : Prop :=
  ∃ a, FreeBlock env s' a ∧
    ((∃ q, FreeBlock env s q ∧ q + (s.info q).size = h ∧ a = q) ∨
      ((∀ q, FreeBlock env s q → q + (s.info q).size ≠ h) ∧ a = h)) ∧
    ((FreeBlock env s (h + (s.info h).size) ∧
        a + (s'.info a).size = h + (s.info h).size + (s.info (h + (s.info h).size)).size) ∨
      (¬FreeBlock env s (h + (s.info h).size) ∧ a + (s'.info a).size = h + (s.info h).size))

variable {env} {s s' : State} {blocks blocks' pre post : List Blk} {epi epi' : Info}
  {lists lists' : List SizeList} {mem : Nat → Nat} {ops : List Op} {w w' : World}
  {a n : Nat} {b : Blk}

theorem Tiled.freeBlock_iff (h : Tiled env s blocks epi) :
    FreeBlock env s a ∧ (s.info a).size = n ↔ FreeAt env blocks a n := by
  constructor
  · rintro ⟨⟨hblock, hfree⟩, rfl⟩
    obtain ⟨b, hb, hinfo⟩ := h.isBlock hblock
    rw [hinfo] at hfree ⊢
    exact ⟨b, hb, hfree, rfl⟩
  · rintro ⟨b, hb, hfree, rfl⟩
    have hinfo := h.header a b hb
    refine ⟨⟨h.walk_of_at hb, by rw [hinfo, hfree]⟩, ?_⟩
    rw [hinfo]
    rfl

-- The block behind a block.
theorem at_behind {a : Nat} {c : Blk} (hsized : ∀ d ∈ pre ++ b :: post, 0 < d.size)
    (h : At a (pre ++ b :: post) (a + total pre + b.size) c) : ∃ rest, post = c :: rest := by
  have hb := hsized b (by simp)
  have hc := hsized c h.mem
  rw [at_append] at h
  rcases h with h | ⟨he, -⟩ | h
  · have hbound := h.bounds
    omega
  · omega
  · cases post with
    | nil => exact absurd h id
    | cons d rest =>
        rcases h with ⟨-, rfl⟩ | h
        · exact ⟨rest, rfl⟩
        · have hd := hsized d (by simp)
          have hbound := h.bounds
          omega

theorem Tiled.pos (h : Tiled env s blocks epi) (b : Blk) (hb : b ∈ blocks) : 0 < b.size := by
  have hsized := h.sized b hb
  omega

theorem Shows.next_free (h : Shows env s (pre ++ b :: post) epi lists []) :
    FreeBlock env s (firstBlock env + total pre + b.size) ↔
      ∃ c rest, post = c :: rest ∧ c.info.allocated = false := by
  constructor
  · intro hfree
    obtain ⟨c, hc, hcfree, -⟩ := h.tiled.freeBlock_iff.mp ⟨hfree, rfl⟩
    obtain ⟨rest, rfl⟩ := at_behind h.tiled.pos hc
    exact ⟨c, rest, rfl, hcfree⟩
  · rintro ⟨c, rest, rfl, hfree⟩
    exact (h.tiled.freeBlock_iff.mpr ⟨c, at_second _ pre rest b c, hfree, rfl⟩).1

theorem Shows.noFreePair (h : Shows env s blocks epi lists []) (hpair : NoPair blocks) :
    NoFreePair env s := by
  intro a ha hnext
  obtain ⟨b, hb, hfree, hsize⟩ := h.tiled.freeBlock_iff.mp ⟨ha, rfl⟩
  obtain ⟨pre, post, rfl, rfl⟩ := hb.split
  rw [← hsize] at hnext
  obtain ⟨c, rest, rfl, hc⟩ := h.next_free.mp hnext
  rcases (noPair_middle.mp hpair).2.2 with hfull | ⟨-, hhead⟩
  · rw [hfull] at hfree
    cases hfree
  · rw [hhead c (by simp)] at hc
    cases hc

-- What the freed block has become.
theorem Frees.spans (hfrees : Frees pre b post blocks')
    (h : Shows env s (pre ++ b :: post) epi lists []) (h' : Shows env s' blocks' epi' lists' [])
    (hprev : ∀ q, FreeBlock env s q → q + (s.info q).size ≠ firstBlock env + total pre) :
    Spans env s s' (firstBlock env + total pre) := by
  have hinfo : (s.info (firstBlock env + total pre)).size = b.size := by
    rw [h.tiled.header _ b (at_middle _ pre post b)]
    rfl
  unfold Spans
  rw [hinfo]
  -- the new block starts where the freed one did
  have hnew {f : Blk} {n : Nat} {rest : List Blk} (hf : f.shape = (n, false))
      (hshape : blocks'.map Blk.shape = (pre ++ f :: rest).map Blk.shape) :
      FreeBlock env s' (firstBlock env + total pre) ∧
        (s'.info (firstBlock env + total pre)).size = n := by
    obtain ⟨hsize, hfree⟩ := Prod.mk.inj hf
    have hat : FreeFrom (firstBlock env) (pre ++ f :: rest) (firstBlock env + total pre) n :=
      ⟨f, at_middle _ pre rest f, hfree, hsize⟩
    exact h'.tiled.freeBlock_iff.mpr (hat.of_shape hshape)
  cases hfrees with
  | alone f hnext hf hshape =>
      obtain ⟨hfree, hsize⟩ := hnew hf hshape
      refine ⟨_, hfree, Or.inr ⟨hprev, rfl⟩, Or.inr ⟨fun hn => ?_, by rw [hsize]⟩⟩
      obtain ⟨c, rest, rfl, hc⟩ := h.next_free.mp hn
      rw [hnext c (by simp)] at hc
      cases hc
  | merged f c rest hpost hc hf hshape =>
      subst hpost
      obtain ⟨hfree, hsize⟩ := hnew hf hshape
      have hcinfo : (s.info (firstBlock env + total pre + b.size)).size = c.size := by
        rw [h.tiled.info_behind]
        rfl
      refine ⟨_, hfree, Or.inr ⟨hprev, rfl⟩, Or.inl ⟨h.next_free.mpr ⟨c, rest, rfl, hc⟩, ?_⟩⟩
      rw [hsize, hcinfo]
      omega

-- A free block in front of the freed one is not merged.
theorem Frees.pair (hfrees : Frees pre b post blocks')
    (h : Shows env s (pre ++ b :: post) epi lists []) (h' : Shows env s' blocks' epi' lists' [])
    {q : Nat} (hq : FreeBlock env s q) (hqe : q + (s.info q).size = firstBlock env + total pre) :
    ¬NoFreePair env s' := by
  obtain ⟨c, hc, hcfree, hcsize⟩ := h.tiled.freeBlock_iff.mp ⟨hq, rfl⟩
  have hfirst {f : Blk} {n : Nat} {rest : List Blk} (hf : f.shape = (n, false))
      (hshape : blocks'.map Blk.shape = (pre ++ f :: rest).map Blk.shape) : ¬NoFreePair env s' := by
    obtain ⟨hsize, hfree⟩ := Prod.mk.inj hf
    have hpre : At (firstBlock env) pre q c := by
      have hpos := h.tiled.pos c hc.mem
      rw [at_append] at hc
      rcases hc with hc | hc
      · exact hc
      · have hbound := hc.bounds
        omega
    have hcut : FreeFrom (firstBlock env) (pre ++ f :: rest) q (s.info q).size :=
      ⟨c, at_append.mpr (Or.inl hpre), hcfree, hcsize⟩
    have hat : FreeFrom (firstBlock env) (pre ++ f :: rest) (firstBlock env + total pre) n :=
      ⟨f, at_middle _ pre rest f, hfree, hsize⟩
    have hq' := h'.tiled.freeBlock_iff.mpr (hcut.of_shape hshape)
    have hf' := h'.tiled.freeBlock_iff.mpr (hat.of_shape hshape)
    intro hno
    apply hno q hq'.1
    rw [hq'.2, hqe]
    exact hf'.1
  cases hfrees with
  | alone f hnext hf hshape => exact hfirst hf hshape
  | merged f c rest hpost hc hf hshape => exact hfirst hf hshape

-- In every run of good calls that free no block behind a free one, sf_free leaves
-- no two free blocks side by side, and merges exactly the free neighbours. It does
-- so if and only if the block in front of the freed one is not free.
theorem coalesced_iff {ptr : Nat} (hdoc : Documented env)
    (hrun : Steps (exec env) (fun w op => Good env w op ∧ PrevTaken env w op)
      (World.start env mem) ops w)
    (hgood : Good env w (.free ptr)) (hexec : exec env w (.free ptr) = .ok w') :
    (NoFreePair env w'.heap ∧ Spans env w.heap w'.heap (ptr - 8)) ↔
      PrevTaken env w (.free ptr) := by
  have hholds : Holds env (fun blocks _ _ => NoPair blocks) w :=
    Holds.run hdoc (fun _ _ h => h.1) (fun _ _ _ _ _ _ hpair _ _ => hpair)
      (fun _ _ _ _ _ _ _ _ _ hguard hpair hmoves => hmoves.noPair hguard.2 hpair) hrun
  obtain ⟨⟨l, hl, rfl⟩, hok⟩ := hgood
  cases hholds with
  | empty _ _ hlive =>
      rw [hlive] at hl
      cases hl
  | heap hshows howned hpair =>
      rcases free_ready hdoc hshows howned hl hok with habort |
        ⟨pre, b, post, s', blocks', epi', lists', rfl, hptr, heq, hshows', hfrees, -, -⟩
      · rw [exec, habort] at hexec
        cases hexec
      · obtain rfl := Except.ok.inj ((exec_free heq).symm.trans hexec)
        have hplace : l.ptr - 8 = firstBlock env + total pre := by omega
        simp only [PrevTaken, hplace]
        constructor
        · rintro ⟨hno, -⟩ q hq hqe
          exact hfrees.pair hshows hshows' hq hqe hno
        · intro hprev
          exact ⟨hshows'.noFreePair (noPair_frees hfrees (prev_taken hshows hprev) hpair),
            hfrees.spans hshows hshows' hprev⟩

theorem Walk.ge (h : Walk env s a) : firstBlock env ≤ a := by
  induction h with
  | first => exact Nat.le_refl _
  | next _ _ ih => omega

-- The first block of the heap is freed in front of a free block.
theorem coalesced_of_first_block : ∃ w w', Steps (exec smallHeap)
    (fun w op => Good smallHeap w op ∧ PrevTaken smallHeap w op) (World.start smallHeap fun _ => 0)
    [.malloc 24] w ∧ Good smallHeap w (.free 4144) ∧ exec smallHeap w (.free 4144) = .ok w' ∧
    PrevTaken smallHeap w (.free 4144) ∧
    NoFreePair smallHeap w'.heap ∧ Spans smallHeap w.heap w'.heap 4136 := by
  obtain ⟨w, hrun, hw⟩ :=
    run_of smallHeap (fun w op => Good smallHeap w op ∧ op = .malloc 24) (fun _ => 0)
    [.malloc 24] (fun w => (decide (Good smallHeap w (.free 4144)), (w.heap.info 4136).size,
      (exec smallHeap w (.free 4144)).toOption.isSome)) (true, 32, true) (by decide +kernel)
  obtain ⟨hgood, hw⟩ := Prod.mk.inj hw
  obtain ⟨hsize, hsome⟩ := Prod.mk.inj hw
  have hgood := of_decide_eq_true hgood
  have hrun' : Steps (exec smallHeap) (fun w op => Good smallHeap w op ∧ PrevTaken smallHeap w op)
      (World.start smallHeap fun _ => 0) [.malloc 24] w := by
    refine hrun.weaken ?_
    rintro v op ⟨hop, rfl⟩
    exact ⟨hop, trivial⟩
  obtain ⟨w', hexec⟩ : ∃ w', exec smallHeap w (.free 4144) = .ok w' := by
    cases hstep : exec smallHeap w (.free 4144) with
    | error e =>
        rw [hstep] at hsome
        cases hsome
    | ok w' => exact ⟨w', rfl⟩
  have hprev : PrevTaken smallHeap w (.free 4144) := by
    intro q hq hqe
    have hge : 4136 ≤ q := hq.1.1.ge
    obtain rfl : q = 4136 := by omega
    omega
  have hres := (coalesced_iff smallHeap_documented hrun' hgood hexec).mpr hprev
  exact ⟨w, w', hrun', hgood, hexec, hprev, hres⟩

-- The second of two blocks is freed behind the first one, which is free already.
theorem not_coalesced_of_free_block_in_front : Documented smallHeap ∧ ∃ w w',
    Steps (exec smallHeap) Allowed (World.start smallHeap fun _ => 0)
      [.malloc 24, .malloc 24, .free 4144] w ∧ Allowed w (.free 4176) ∧
    exec smallHeap w (.free 4176) = .ok w' ∧
    ¬(NoFreePair smallHeap w'.heap ∧ Spans smallHeap w.heap w'.heap 4168) := by
  obtain ⟨w, hrun, hw⟩ := run_of smallHeap Allowed (fun _ => 0) [.malloc 24, .malloc 24, .free 4144]
    (fun w => (decide (Allowed w (.free 4176)),
      (exec smallHeap w (.free 4176)).toOption.map fun w' =>
      (w'.heap.memEnd, (w'.heap.info 4136).allocated, (w'.heap.info 4136).size,
        (w'.heap.info 4168).allocated))) (true, some (8192, false, 32, false)) (by decide +kernel)
  obtain ⟨hallowed, hw⟩ := Prod.mk.inj hw
  have hallowed := of_decide_eq_true hallowed
  cases hstep : exec smallHeap w (.free 4176) with
  | error e =>
      rw [hstep] at hw
      cases hw
  | ok w' =>
      rw [hstep] at hw
      simp only [Except.toOption, Option.map_some, Option.some.injEq, Prod.mk.injEq] at hw
      obtain ⟨hend, hfree, hsize, hfree'⟩ := hw
      refine ⟨smallHeap_documented, w, w', hrun, hallowed, hstep, fun hno => ?_⟩
      have hfirst : FreeBlock smallHeap w'.heap 4136 :=
        ⟨⟨Walk.first, by rw [hend]; decide⟩, hfree⟩
      have hnext : Walk smallHeap w'.heap (4136 + (w'.heap.info 4136).size) :=
        .next hfirst.1.1 hfirst.1.2
      refine hno.1 4136 hfirst ⟨⟨hnext, ?_⟩, ?_⟩
      · rw [hsize, hend]
        decide
      · rw [hsize]
        exact hfree'

end CSE320.Sfmm
