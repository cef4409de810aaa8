import CSE320.Sfmm.Requests

namespace CSE320.Sfmm

open Lib (Steps)

variable (env : Sfutil)

-- What valid_ptr accepts for the header of an allocated block.
def LooksAllocated (s : State) (header : Nat) : Prop :=
  (s.info header).allocated = true ∧ 32 ≤ (s.info header).size ∧
    ((s.info header).requestedSize.toNat + 8) % 2 ^ 32 ≤ (s.info header).size ∧
    ((s.info header).prevAllocated = true ∨ (s.info (header - 8)).allocated = false)

instance (s : State) (header : Nat) : Decidable (LooksAllocated s header) :=
  inferInstanceAs (Decidable (_ ∧ _ ∧ _ ∧ (_ ∨ _)))

-- Outside the blocks, which are between the prologue and the epilogue.
def Outside (s : State) (ptr : Nat) : Prop := ptr < firstBlock env ∨ s.memEnd - 8 ≤ ptr

-- sf_free ends with abort for a pointer that is no allocation, and does not for an
-- allocation of the client.
structure Validates (w : World) (ptr : Nat) : Prop where
  refused : ptr = 0 ∨ Outside env w.heap ptr ∨ FreeBlock env w.heap (ptr - 8) →
    sfFree env w.heap ptr = .error .abort
  accepted : (∃ l ∈ w.live, l.ptr = ptr) → sfFree env w.heap ptr ≠ .error .abort

-- The word behind the heap that passes the bound check does not look like the
-- header of an allocated block, and the block in front of an allocation is known to
-- be allocated or its last word does not say so.
def PointerMeets (w : World) (ptr : Nat) : Prop :=
  (ptr = w.heap.memEnd + 16 → env.memStart ≠ w.heap.memEnd →
    ¬LooksAllocated w.heap (w.heap.memEnd + 8)) ∧
    ((∃ l ∈ w.live, l.ptr = ptr) →
      (w.heap.info (ptr - 8)).prevAllocated = true ∨ (w.heap.info (ptr - 16)).allocated = false)

variable {env} {s : State} {ptr size x last cursor fuel : Nat} {w : World} {blocks : List Blk}
  {epi : Info} {lists : List SizeList} {mem : Nat → Nat} {ops : List Op}

theorem checkPtr_valid_iff : checkPtr env s ptr = .valid ↔
    ptr ≠ 0 ∧ firstBlock env ≤ ptr - 8 ∧ ptr - 8 ≤ s.memEnd + 8 ∧ LooksAllocated s (ptr - 8) := by
  have hbits (p q : Bool) : ¬(p = false ∧ q = true) ↔ p = true ∨ q = false := by
    cases p <;> cases q <;> simp
  unfold checkPtr LooksAllocated
  simp only
  split
  · simp_all
  split
  · simp only [reduceCtorEq, false_iff]
    omega
  split
  · simp only [reduceCtorEq, false_iff]
    omega
  split
  · simp_all
  split
  · simp only [reduceCtorEq, false_iff]
    omega
  split
  · simp only [reduceCtorEq, false_iff]
    omega
  split
  · rename_i hprev
    simp [hprev]
  · rename_i hprev
    have hprev := (hbits _ _).mp hprev
    simp_all

theorem ok_ne_abort {α : Type} (a : α) : (.ok a : Except Stop α) ≠ .error .abort := by
  intro habort
  cases habort

theorem bind_ne_abort {α β : Type} {call : Except Stop α} {next : α → Except Stop β}
    (hcall : call ≠ .error .abort) (hnext : ∀ a, next a ≠ .error .abort) :
    (call >>= next) ≠ .error .abort := by
  cases call with
  | error e => exact fun habort => hcall (congrArg Except.error (Except.error.inj habort))
  | ok a => exact hnext a

theorem ite_ne_abort {α : Type} (p : Prop) [Decidable p] {first second : Except Stop α}
    (hfirst : first ≠ .error .abort) (hsecond : second ≠ .error .abort) :
    (if p then first else second) ≠ .error .abort := by
  split
  · exact hfirst
  · exact hsecond

-- Behind the check there is no other call of abort, as long as a node is handed
-- out.
theorem findPlace_ne_abort : findPlace s size fuel cursor ≠ .error .abort := by
  induction fuel generalizing cursor with
  | zero =>
      intro habort
      cases habort
  | succ fuel ih =>
      unfold findPlace
      split
      · exact ok_ne_abort _
      · split
        · exact ok_ne_abort _
        · split
          · exact ok_ne_abort _
          · exact ih

theorem insertSized_ne_abort (hadds : ∀ k, env.adds k = true) (link : State → Nat → Nat → State) :
    insertSized env s size x last link ≠ .error .abort := by
  have hadd (next : Nat) : ∃ node s', sfAddFreeList env s size next = (some node, s') :=
    ⟨_, _, if_pos (hadds _)⟩
  refine bind_ne_abort findPlace_ne_abort fun found => ?_
  cases found with
  | equal node => exact ok_ne_abort _
  | before node =>
      obtain ⟨added, s', heq⟩ := hadd node
      simp only [heq]
      exact ok_ne_abort _
  | atEnd =>
      obtain ⟨added, s', heq⟩ := hadd last
      simp only [heq]
      exact ok_ne_abort _

theorem coalesce_ne_abort {top bottom newFooter : Nat} (hadds : ∀ k, env.adds k = true) :
    coalesce env s top bottom newFooter ≠ .error .abort := insertSized_ne_abort hadds _

theorem sfFree_abort_iff (hadds : ∀ k, env.adds k = true) :
    sfFree env s ptr = .error .abort ↔ checkPtr env s ptr ≠ .valid := by
  constructor
  · intro habort hvalid
    rw [sfFree, validPtr, hvalid, Lib.ok_bind] at habort
    refine bind_ne_abort (insertSized_ne_abort hadds _) (fun s₁ => ?_) habort
    exact ite_ne_abort _
      (bind_ne_abort (coalesce_ne_abort hadds) fun s₂ =>
        ite_ne_abort _ (coalesce_ne_abort hadds) (ok_ne_abort s₂))
      (bind_ne_abort (ok_ne_abort s₁) fun s₂ =>
        ite_ne_abort _ (coalesce_ne_abort hadds) (ok_ne_abort s₂))
  · intro hvalid
    rw [sfFree, validPtr]
    split
    · exact absurd ‹_› hvalid
    · rfl

-- An allocation of the client passes all tests but the last.
theorem Shows.valid_iff (h : Shows env w.heap blocks epi lists [])
    (howned : Owned env w blocks) (hreq : Requested w) {l : Live} (hl : l ∈ w.live) :
    checkPtr env w.heap l.ptr = .valid ↔
      (w.heap.info (l.ptr - 8)).prevAllocated = true ∨
        (w.heap.info (l.ptr - 16)).allocated = false := by
  obtain ⟨hptr, b, hb, halloc, hsize⟩ := howned.block l hl
  have hbound := h.tiled.bounds hb
  have hbsize : b.info.size = b.size := rfl
  have hrequested := hreq l hl
  have hinfo := h.tiled.header _ b hb
  have hfits : (BitVec.ofNat 32 l.size).toNat + 8 ≤ b.size := by
    rw [BitVec.toNat_ofNat]
    omega
  rw [checkPtr_valid_iff, LooksAllocated, hrequested, hinfo, hbsize,
    show l.ptr - 8 - 8 = l.ptr - 16 by omega]
  refine ⟨fun hvalid => hvalid.2.2.2.2.2.2,
    fun hprev => ⟨by omega, ?_, ?_, halloc, hbound.2.2, ?_, hprev⟩⟩
  · simp only [firstBlock]
    omega
  · rw [h.tiled.memEnd]
    omega
  · omega

-- In every state that good calls lead to, and for every aligned pointer.
theorem validates_iff (hdoc : Documented env)
    (hrun : Steps (exec env) (Good env) (World.start env mem) ops w) (haligned : ptr % 16 = 0) :
    Validates env w ptr ↔ PointerMeets env w ptr := by
  have habort : sfFree env w.heap ptr = .error .abort ↔ checkPtr env w.heap ptr ≠ .valid :=
    sfFree_abort_iff hdoc.adds
  obtain ⟨hholds, hreq⟩ := requested_of_run hdoc hrun
  cases hholds with
  | empty hend hlisted hlive =>
      -- the bound check refuses every pointer
      refine iff_of_true ⟨fun _ => habort.mpr fun hvalid => ?_,
        ?_⟩ ⟨fun _ hne => absurd hend.symm hne, ?_⟩
      · obtain ⟨hne, hlow, hhigh, -⟩ := checkPtr_valid_iff.mp hvalid
        simp only [firstBlock, hend] at hlow hhigh
        omega
      · simp [hlive]
      · simp [hlive]
  | heap h howned _ =>
      have hend := h.tiled.memEnd
      have hstart := hdoc.aligned
      have hlive : (∃ l ∈ w.live, l.ptr = ptr) → (checkPtr env w.heap ptr = .valid ↔
          (w.heap.info (ptr - 8)).prevAllocated = true ∨
            (w.heap.info (ptr - 16)).allocated = false) := by
        rintro ⟨l, hl, rfl⟩
        exact h.valid_iff howned hreq hl
      constructor
      · rintro ⟨hrefused, haccepted⟩
        refine ⟨?_, fun hptr => ?_⟩
        · rintro rfl hne hlooks
          refine habort.mp (hrefused (Or.inr (Or.inl (Or.inr (by omega)))))
            (checkPtr_valid_iff.mpr ?_)
          refine ⟨by omega, ?_, by omega, hlooks⟩
          simp only [firstBlock]
          omega
        · have hvalid := mt habort.mpr (haccepted hptr)
          exact (hlive hptr).mp (not_not.mp hvalid)
      · rintro ⟨hbehind, hprev⟩
        refine ⟨fun hno => habort.mpr fun hvalid => ?_,
          fun hptr hstop => habort.mp hstop ((hlive hptr).mpr (hprev hptr))⟩
        obtain ⟨hne, hlow, hhigh, hlooks⟩ := checkPtr_valid_iff.mp hvalid
        simp only [firstBlock] at hlow
        rcases hno with hnull | (hbefore | hafter) | hfree
        · exact hne hnull
        · simp only [firstBlock] at hbefore
          omega
        · -- the epilogue, or the word behind the heap
          rcases (by omega : ptr = w.heap.memEnd ∨ ptr = w.heap.memEnd + 16) with rfl | rfl
          · have hsize := hlooks.2.1
            rw [h.memEnd, h.tiled.epilogue, h.closed.2] at hsize
            omega
          · exact hbehind rfl (by omega) hlooks
        · have halloc := hlooks.1
          rw [hfree.2] at halloc
          cases halloc

theorem validates_of_split : ∃ w, Steps (exec smallHeap) (Good smallHeap)
    (World.start smallHeap fun _ => 0)
    [.malloc 24] w ∧ Validates smallHeap w 4144 := by
  obtain ⟨w, hrun, hbit⟩ := run_of smallHeap (Good smallHeap) (fun _ => 0) [.malloc 24]
    (fun w => (w.heap.memEnd, (w.heap.info 4136).prevAllocated)) (8192, true) (by decide +kernel)
  obtain ⟨hend, hprev⟩ := Prod.mk.inj hbit
  refine ⟨w, hrun, (validates_iff smallHeap_documented hrun (by decide)).mpr ⟨fun hptr => ?_,
    fun _ => Or.inl hprev⟩⟩
  rw [hend] at hptr
  cases hptr

-- The whole page is handed out. The bit for the block in front of the first block
-- is not set, and the footer of the prologue says that the prologue is allocated.
theorem not_validates_of_whole_page : Documented smallHeap ∧
    ∃ w, Steps (exec smallHeap) (Good smallHeap) (World.start smallHeap fun _ => 0)
      [.malloc 4040] w ∧
      (∃ l ∈ w.live, l.ptr = 4144) ∧ ¬Validates smallHeap w 4144 := by
  obtain ⟨w, hrun, hlive⟩ := run_of smallHeap (Good smallHeap) (fun _ => 0) [.malloc 4040]
    (fun w => (w.live, checkPtr smallHeap w.heap 4144)) ([⟨4144, 4040⟩],
      .invalid) (by decide +kernel)
  obtain ⟨hlive, hcheck⟩ := Prod.mk.inj hlive
  have hptr : ∃ l ∈ w.live, l.ptr = 4144 :=
    ⟨⟨4144, 4040⟩, by rw [hlive]; exact List.mem_cons_self, rfl⟩
  refine ⟨smallHeap_documented, w, hrun, hptr, fun hvalidates => hvalidates.accepted hptr ?_⟩
  rw [sfFree, validPtr, hcheck]
  rfl

end CSE320.Sfmm
