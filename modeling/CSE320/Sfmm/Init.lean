import CSE320.Sfmm.Shape

namespace CSE320.Sfmm

theorem padding_spec {size : Nat} (h : size ≤ 2 ^ 64 - 24) :
    32 ≤ padding size ∧ padding size % 16 = 0 ∧ size + 8 ≤ padding size ∧
      padding size < 2 ^ 64 := by
  simp only [padding]
  split
  · omega
  · split <;> omega

theorem subSize_eq {a b : Nat} (hle : b ≤ a) (ha : a < 2 ^ 64) : subSize a b = a - b := by
  rw [subSize]
  omega

variable (env : Sfutil)

-- The next call of sf_mem_grow succeeds.
def Grows (s : State) : Prop := env.grows s.growCalls = true ∧ s.memEnd + pageSz ≤ env.memLimit

instance (s : State) : Decidable (Grows env s) := inferInstanceAs (Decidable (_ ∧ _))

-- What init_mem puts into the header and the footer of the one free block, and
-- into the epilogue.
def freshInfo : Info where
  allocated := false
  prevAllocated := false
  twoZeroes := 0
  blockSize := Info.blocks freeBlockSize
  requestedSize := 0

def freshEpilogue : Info where
  allocated := true
  prevAllocated := false
  twoZeroes := 0
  blockSize := 0
  requestedSize := 0

variable {env} {s : State} {blocks : List Blk} {epi : Info} {lists pre post : List SizeList}
  {l : SizeList} {x : Nat}

-- The four assignments that make a list out of a new node and one block.
theorem Listed.linkFirst (hdoc : Documented env) (h : Listed env s (pre ++ l :: post))
    (hnil : l.members = []) (hx : InHeap env x) (hnew : ∀ a ∈ pre ++ l :: post, x ∉ a.members) :
    Listed env ((((s.setLinkNext (head l.node) x).setLinkPrev (head l.node) x).setLinkPrev x
      (head l.node)).setLinkNext x (head l.node))
        (pre ++ { l with members := x :: l.members } :: post) ∧
      Relinked s ((((s.setLinkNext (head l.node) x).setLinkPrev (head l.node) x).setLinkPrev x
        (head l.node)).setLinkNext x (head l.node)) (x :: head l.node :: l.members) := by
  have hl : l ∈ pre ++ l :: post := mem_middle.mpr (Or.inl rfl)
  have hxowner : Owner env x := Or.inl hx
  have hne := h.head_ne hdoc hl hx
  have hwords := (h.headOwner hl).words_ne hdoc hxowner hne
  have hnext : s.linkNext (head l.node) = head l.node := by
    rw [(h.ring l hl).next_eq_head_iff (List.nodup_cons.mp (h.ring_nodup hdoc hl)).1, hnil]
  refine h.pushed hdoc hx hnew hnext rfl rfl ⟨?_, ?_⟩ ⟨?_, ?_⟩ fun w h₁ h₂ h₃ h₄ => ?_
  · simp only [State.linkNext, State.setLinkNext, State.setLinkPrev, State.write]
    rw [if_neg hwords.1.1, if_neg hwords.1.2, if_neg (by omega), if_pos trivial]
  · simp [State.linkPrev, State.setLinkNext, State.setLinkPrev, State.write]
  · simp [State.linkNext, State.setLinkNext, State.write]
  · simp only [State.linkPrev, State.setLinkNext, State.setLinkPrev, State.write]
    rw [if_neg hwords.2.1, if_neg hwords.2.2, if_pos trivial]
  · simp [State.setLinkNext, State.setLinkPrev, State.write, h₁, h₂, h₃, h₄]

theorem sfAddFreeList_growCalls (size next : Nat) :
    (sfAddFreeList env s size next).2.growCalls = s.growCalls := by
  rw [sfAddFreeList]
  split <;> rfl

-- Words outside the heap are not written before the first node is added.
theorem Listed.outside {s' : State} (hdoc : Documented env) (h : Listed env s [])
    (hnodes : s'.nodes = s.nodes)
    (hsame : ∀ w, (w < env.memStart ∨ env.memStart + 4096 ≤ w) → s'.mem w = s.mem w) :
    Listed env s' [] := by
  refine h.congr hnodes fun w hw => hsame w ?_
  rcases hw with ⟨k, -, hk⟩ | ⟨l, hl, -⟩
  · have haway := hdoc.slotAway k
    omega
  · cases hl

-- The page as init_mem leaves it before the first node is added.
def firstPage (env : Sfutil) (s : State) : State :=
  let s := epilogue (prologue env s)
  let s := (s.clearHeader (firstBlock env)).setInfo (firstBlock env) fun i =>
    { i with blockSize := Info.blocks freeBlockSize }
  (s.write (s.memEnd - 16) 0).setInfo (s.memEnd - 16) fun i =>
    { i with blockSize := Info.blocks freeBlockSize }

theorem prologue_mem {w : Nat} (hw : w < env.memStart ∨ env.memStart + 40 ≤ w) :
    (prologue env s).mem w = s.mem w := by
  simp (disch := omega) only [prologue, State.clearHeader, State.setInfo,
    State.mem_write_ne, List.map_cons, List.map_nil, List.foldl_cons, List.foldl_nil]

theorem prologue_memEnd : (prologue env s).memEnd = s.memEnd := rfl

theorem epilogue_memEnd : (epilogue s).memEnd = s.memEnd := rfl

theorem clearHeader_memEnd : (s.clearHeader x).memEnd = s.memEnd := rfl

theorem firstPage_mem (hend : s.memEnd = env.memStart + 4096) {w : Nat}
    (hw : w < env.memStart ∨ env.memStart + 4096 ≤ w) : (firstPage env s).mem w = s.mem w := by
  have hfirst : firstBlock env = env.memStart + 40 := rfl
  simp only [firstPage, State.setInfo_memEnd, clearHeader_memEnd, epilogue_memEnd,
    prologue_memEnd, hend]
  simp (disch := omega) only [State.mem_setInfo_ne, State.mem_write_ne, State.clearHeader, epilogue,
    prologue_memEnd, hend, prologue_mem]

theorem firstPage_tiled (hend : s.memEnd = env.memStart + 4096) :
    Tiled env (firstPage env s) [⟨freshInfo, freshInfo⟩] freshEpilogue := by
  have hfirst : firstBlock env = env.memStart + 40 := rfl
  have hsize : Blk.size ⟨freshInfo, freshInfo⟩ = 4048 := rfl
  refine ⟨hend, rfl, by simp [hsize], fun y b hy => ?_, fun y b hy _ => ?_, ?_⟩
  · obtain ⟨rfl, rfl⟩ : y = firstBlock env ∧ b = ⟨freshInfo, freshInfo⟩ := by
      rcases hy with hy | hy
      · exact hy
      · exact absurd hy id
    simp only [firstPage, State.setInfo_memEnd, clearHeader_memEnd, epilogue_memEnd,
      prologue_memEnd, hend]
    simp (disch := omega) only [State.info_setInfo_ne, State.info_write_ne, State.info_setInfo_self,
      State.clearHeader, State.info_write_self]
    rfl
  · obtain ⟨rfl, rfl⟩ : y = firstBlock env ∧ b = ⟨freshInfo, freshInfo⟩ := by
      rcases hy with hy | hy
      · exact hy
      · exact absurd hy id
    rw [hsize, show firstBlock env + 4048 - 8 = s.memEnd - 16 by omega]
    simp only [firstPage, State.setInfo_memEnd, clearHeader_memEnd, epilogue_memEnd,
      prologue_memEnd]
    rw [State.info_setInfo_self, State.info_write_self]
    rfl
  · simp only [firstPage, State.setInfo_memEnd, clearHeader_memEnd, epilogue_memEnd,
      prologue_memEnd, hend]
    simp (disch := omega) only [State.info_setInfo_ne, State.info_write_ne,
      State.clearHeader, epilogue, prologue_memEnd, hend]
    rw [show env.memStart + 4088 = env.memStart + 4096 - 8 by omega, State.info_setInfo_self,
      State.info_write_self]
    rfl

-- The information word in a node is neither a link nor a tag.
theorem Shows.setNodeInfo {out : List Nat} (hdoc : Documented env)
    (h : Shows env s blocks epi lists out) (hl : l ∈ lists) (f : Info → Info) :
    Shows env (s.setInfo (head l.node) f) blocks epi lists out := by
  obtain ⟨k, -, -, hk⟩ := h.listed.nodeSlots l hl
  have haway := hdoc.slotAway k
  rw [hk]
  refine h.reshape (h.tiled.congr rfl fun w hw => s.mem_setInfo_ne f ?_) (h.listed.setInfo ?_)
    rfl h.closed
  · rintro rfl
    refine h.tiled.not_tagged_of_away ?_ hw
    simp only [head]
    omega
  · rintro (⟨j, -, hj⟩ | ⟨l, hl, y, hy, hw⟩)
    · have hne (a : Nat) (ha : a < 48) (ha' : a ≠ 8) : head (env.slot k) ≠ env.slot j + a :=
        slot_add_ne hdoc (by omega) ha (Or.inr ha'.symm)
      have h₁ := hne 0 (by omega) (by omega)
      have h₂ := hne 16 (by omega) (by omega)
      have h₃ := hne 24 (by omega) (by omega)
      have h₄ := hne 32 (by omega) (by omega)
      have h₅ := hne 40 (by omega) (by omega)
      omega
    · obtain ⟨hy₁, hy₂, -⟩ := h.listed.inHeap l hl y hy
      simp only [head] at hw
      omega

-- A node has just been added for a block that is out of the lists.
theorem Shows.linkFirst {out : List Nat} (hdoc : Documented env)
    (h : Shows env s blocks epi (pre ++ l :: post) (x :: out)) (hnil : l.members = [])
    (hx : FreeAt env blocks x l.size) (hout : x ∉ out) :
    Shows env ((((s.setLinkNext (head l.node) x).setLinkPrev (head l.node) x).setLinkPrev x
      (head l.node)).setLinkNext x (head l.node)) blocks epi
      (pre ++ { l with members := x :: l.members } :: post) out := by
  have hx' := hx
  obtain ⟨b, hb, -⟩ := hx
  obtain ⟨hlisted, hrel⟩ := h.listed.linkFirst hdoc hnil (h.tiled.inHeap hdoc hb) h.not_member
  exact h.pushed hdoc hx' hout hlisted hrel

theorem initMem_grows (hdoc : Documented env) (hend : s.memEnd = env.memStart)
    (hlisted : Listed env s []) (hgrows : Grows env s) :
    ∃ s' node, initMem env s = (true, s') ∧ s'.growCalls = s.growCalls + 1 ∧
      Shows env s' [⟨freshInfo, freshInfo⟩] freshEpilogue [⟨node, 4048, [firstBlock env]⟩] [] := by
  have hgrow : sfMemGrow env s = (some s.memEnd,
      { s with memEnd := s.memEnd + pageSz, growCalls := s.growCalls + 1 }) := if_pos hgrows
  have hend' : s.memEnd + pageSz = env.memStart + 4096 := by rw [hend, pageSz]
  let page := firstPage env { s with memEnd := s.memEnd + pageSz, growCalls := s.growCalls + 1 }
  have hpage : Listed env page [] := hlisted.outside hdoc rfl fun w hw => firstPage_mem hend' hw
  obtain ⟨s₁, hadd, hkept, hlisted₁⟩ :
      ∃ s', sfAddFreeList env page freeBlockSize (env.slot 0) = _ ∧ _ :=
    Listed.add hdoc (show Listed env page ([] ++ []) from hpage)
      (show [].map SizeList.node ++ [env.slot 0] = env.slot 0 :: [] from rfl)
  have hcalls : s₁.growCalls = s.growCalls + 1 := by
    have h : (sfAddFreeList env page freeBlockSize (env.slot 0)).2.growCalls = page.growCalls :=
      sfAddFreeList_growCalls _ _
    rw [hadd] at h
    exact h
  have hnext : page.nodeNext (env.slot 0) = env.slot 0 := hpage.nodeNext_head
  have hblock : FreeAt env [⟨freshInfo, freshInfo⟩] (firstBlock env) 4048 :=
    ⟨_, Or.inl ⟨rfl, rfl⟩, rfl, rfl⟩
  have hshows : Shows env s₁ [⟨freshInfo, freshInfo⟩] freshEpilogue
      [⟨env.slot (page.nodes + 1), 4048, []⟩] [firstBlock env] := by
    refine ⟨hkept.tiled (firstPage_tiled hend'), hlisted₁, fun y m => ?_, ?_, ?_, rfl, rfl⟩
    · refine ⟨?_, ?_⟩
      · rintro ⟨a, ha, hy, -⟩
        rw [List.mem_singleton.mp ha] at hy
        cases hy
      · rintro ⟨⟨b, ⟨rfl, -⟩ | hb, -⟩, hy⟩
        · exact absurd List.mem_cons_self hy
        · exact absurd hb id
    · simp
    · simp
  have hnode := hshows.setNodeInfo hdoc List.mem_cons_self
    fun i => { i with blockSize := Info.blocks freeBlockSize }
  have hfirst :=
    Shows.linkFirst hdoc (show Shows env _ _ _ ([] ++ _ :: []) (_ :: []) from hnode) rfl hblock
    (List.not_mem_nil)
  refine ⟨_, _, ?_, ?_, hfirst⟩
  · rw [initMem, hgrow]
    dsimp only
    erw [hnext, hadd]
  · exact hcalls

end CSE320.Sfmm
