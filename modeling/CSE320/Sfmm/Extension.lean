import CSE320.Sfmm.Growth

namespace CSE320.Sfmm

variable (env : Sfutil)

-- The state is the same up to the two nodes in the frame of sf_malloc.
structure OffFrame (s s' : State) : Prop where
  rest : s' = { s with mem := s'.mem }
  same : ∀ w, (w < env.frame ∨ env.frame + 96 ≤ w) → s'.mem w = s.mem w

-- The cursor is a copy of a node.
def CopyOf (s : State) (cursor node : Nat) : Prop :=
  ∀ i, i = 0 ∨ i = 16 ∨ i = 32 ∨ i = 40 → s.mem (cursor + i) = s.mem (node + i)

variable {env} {s s' t : State} {lists pre post : List SizeList} {l : SizeList}
  {size p n fuel cursor w : Nat}

theorem OffFrame.refl (s : State) : OffFrame env s s := ⟨rfl, fun _ _ => rfl⟩

theorem OffFrame.trans (h : OffFrame env s s') (h' : OffFrame env s' t) : OffFrame env s t := by
  refine ⟨?_, fun w hw => (h'.same w hw).trans (h.same w hw)⟩
  rw [h'.rest, h.rest]

theorem copyNode_mem (s : State) (dst src w : Nat) : (s.copyNode dst src).mem w =
    if w = dst + 40 then s.mem (src + 40) else if w = dst + 32 then s.mem (src + 32)
    else if w = dst + 24 then s.mem (src + 24) else if w = dst + 16 then s.mem (src + 16)
    else if w = dst + 8 then s.mem (src + 8) else if w = dst then s.mem src else s.mem w := rfl

theorem copyNode_spec {k : Nat} (haway : Away env) (s : State)
    (hcursor : cursor = env.frame ∨ cursor = env.frame + 48) :
    OffFrame env s (s.copyNode cursor (env.slot k)) ∧
      CopyOf (s.copyNode cursor (env.slot k)) cursor (env.slot k) := by
  have hapart := haway.frameSlots k
  refine ⟨⟨rfl, fun w hw => ?_⟩, fun i hi => ?_⟩
  · rw [copyNode_mem]
    iterate 6 rw [if_neg (by omega)]
  · have hsame : (s.copyNode cursor (env.slot k)).mem (env.slot k + i) =
        s.mem (env.slot k + i) := by
      rw [copyNode_mem]
      iterate 6 rw [if_neg (by omega)]
    rw [hsame, copyNode_mem]
    rcases hi with rfl | rfl | rfl | rfl <;> simp

theorem Listed.offFrame (haway : Away env) (hlimit : env.memStart + 4096 ≤ env.memLimit)
    (h : Listed env s lists) (hoff : OffFrame env s s') : Listed env s' lists := by
  refine h.congr (by rw [hoff.rest]) fun w hw => hoff.same w ?_
  have hframe := haway.frame
  rcases hw with ⟨k, -, hk⟩ | ⟨l, hl, y, hy, hw⟩
  · have hapart := haway.frameSlots k
    omega
  · obtain ⟨hlow, hhigh, -⟩ := h.inHeap l hl y hy
    omega

theorem Listed.firstSlot (h : Listed env s (pre ++ post)) :
    ∃ k ≤ s.nodes, firstNode env post = env.slot k := by
  cases post with
  | nil => exact ⟨0, Nat.zero_le _, rfl⟩
  | cons l rest =>
      obtain ⟨k, -, hk, he⟩ := h.nodeSlots l (by simp)
      exact ⟨k, hk, he⟩

-- The cursor goes on to the next node.
theorem Listed.copyNext (haway : Away env) (hlimit : env.memStart + 4096 ≤ env.memLimit)
    (h : Listed env s (pre ++ l :: post)) (hcursor : cursor = env.frame ∨ cursor = env.frame + 48)
    (hcopy : CopyOf s cursor l.node) :
    OffFrame env s (s.copyNode cursor (s.nodeNext cursor)) ∧
      Listed env (s.copyNode cursor (s.nodeNext cursor)) (pre ++ [l] ++ post) ∧
      CopyOf (s.copyNode cursor (s.nodeNext cursor)) cursor (firstNode env post) := by
  have hcut : Listed env s (pre ++ [l] ++ post) := by simpa using h
  obtain ⟨k, -, hk⟩ := hcut.firstSlot
  have hnext : s.nodeNext cursor = env.slot k := by
    rw [← hk, ← h.nodeNext]
    exact hcopy 32 (by simp)
  rw [hnext, hk]
  obtain ⟨hoff, hnew⟩ := copyNode_spec (k := k) haway s hcursor
  exact ⟨hoff, hcut.offFrame haway hlimit hoff, hnew⟩

theorem findCopy_spec (haway : Away env) (hlimit : env.memStart + 4096 ≤ env.memLimit)
    (h : Listed env s (pre ++ post)) (hpos : ∀ a ∈ pre ++ post, 0 < a.size)
    (hcopy : CopyOf s env.frame (firstNode env post)) (hfuel : post.length < fuel) :
    ∃ found s', findCopy env s n fuel = .ok (found, s') ∧ OffFrame env s s' ∧
      (found = true → ∃ a ∈ pre ++ post, s'.linkNext (head env.frame) =
        s'.linkNext (head a.node)) := by
  induction post generalizing pre s fuel with
  | nil =>
      obtain ⟨fuel, rfl⟩ : ∃ k, fuel = k + 1 := ⟨fuel - 1, by omega⟩
      have hzero : s.nodeSize env.frame = 0 := (hcopy 0 (by simp)).trans h.headSize
      exact ⟨false, s, by rw [findCopy, if_pos hzero], .refl s, nofun⟩
  | cons a rest ih =>
      rw [List.length_cons] at hfuel
      obtain ⟨fuel, rfl⟩ : ∃ k, fuel = k + 1 := ⟨fuel - 1, by omega⟩
      have ha : a ∈ pre ++ a :: rest := by simp
      have hsize : s.nodeSize env.frame = a.size := (hcopy 0 (by simp)).trans (h.nodeSizes a ha)
      have hne := Nat.ne_of_gt (hpos a ha)
      rw [findCopy, hsize, if_neg hne]
      by_cases hn : a.size = n
      · exact ⟨true, s, if_pos hn, .refl s, fun _ => ⟨a, ha, hcopy 16 (by simp)⟩⟩
      · rw [if_neg hn]
        obtain ⟨hoff, hlisted, hnew⟩ := h.copyNext haway hlimit (Or.inl rfl) hcopy
        obtain ⟨found, s', heq, hoff', hfound⟩ :=
          ih hlisted (by simpa using hpos) hnew (show rest.length < fuel by omega)
        refine ⟨found, s', heq, hoff.trans hoff', fun hyes => ?_⟩
        simpa using hfound hyes

theorem findGreaterCopy_spec (haway : Away env) (hlimit : env.memStart + 4096 ≤ env.memLimit)
    (h : Listed env s (pre ++ post)) (hpos : ∀ a ∈ pre ++ post, 0 < a.size)
    (hcopy : CopyOf s (env.frame + 48) (firstNode env post)) (hfuel : post.length < fuel) :
    ∃ front back s', findGreaterCopy env s n fuel = .ok (s'.nodePrev (firstNode env back), s') ∧
      OffFrame env s s' ∧ pre ++ post = front ++ back := by
  induction post generalizing pre s fuel with
  | nil =>
      obtain ⟨fuel, rfl⟩ : ∃ k, fuel = k + 1 := ⟨fuel - 1, by omega⟩
      have hzero : s.nodeSize (env.frame + 48) = 0 := (hcopy 0 (by simp)).trans h.headSize
      refine ⟨pre, [], s, ?_, .refl s, rfl⟩
      simp only [findGreaterCopy, hzero, if_true]
      rfl
  | cons a rest ih =>
      rw [List.length_cons] at hfuel
      obtain ⟨fuel, rfl⟩ : ∃ k, fuel = k + 1 := ⟨fuel - 1, by omega⟩
      have ha : a ∈ pre ++ a :: rest := by simp
      have hsize : s.nodeSize (env.frame + 48) = a.size :=
        (hcopy 0 (by simp)).trans (h.nodeSizes a ha)
      have hprev : s.nodePrev (env.frame + 48) = s.nodePrev a.node := hcopy 40 (by simp)
      have hne := Nat.ne_of_gt (hpos a ha)
      simp only [findGreaterCopy, hsize, if_neg hne]
      by_cases hn : a.size > n
      · exact ⟨pre, a :: rest, s, by rw [if_pos hn, hprev]; rfl, .refl s, rfl⟩
      · rw [if_neg hn]
        obtain ⟨hoff, hlisted, hnew⟩ := h.copyNext haway hlimit (Or.inr rfl) hcopy
        obtain ⟨front, back, s', heq, hoff', hcut⟩ :=
          ih hlisted (by simpa using hpos) hnew (show rest.length < fuel by omega)
        exact ⟨front, back, s', heq, hoff.trans hoff', by simpa using hcut⟩

-- The header of the block that the new pages make.
def extInfo (size n : Nat) : Info where
  allocated := true
  prevAllocated := true
  twoZeroes := 0
  blockSize := Info.blocks n
  requestedSize := BitVec.ofNat 32 size

-- The header, the footer and the epilogue that the extension writes.
def extendTags (s : State) (x size n : Nat) : State :=
  let tag (i : Info) : Info :=
    { i with requestedSize := BitVec.ofNat 32 size, blockSize := Info.blocks n, allocated := true,
             prevAllocated := true }
  let s := (s.clearHeader x).setInfo x tag
  epilogue (s.setInfo (s.memEnd - 16) tag)

-- The new block is put into a list, so that it can be split.
def placeExtension (env : Sfutil) (s : State) (x n : Nat) : Except Stop (Extended × State) := do
  let s := s.copyNode env.frame (s.nodeNext (env.slot 0))
  let (found, s) ← findCopy env s n (s.nodes + 1)
  if found then
    return (.found env.frame, s.linkFront (head env.frame) x)
  else
    let s := s.copyNode (env.frame + 48) (s.nodeNext (env.slot 0))
    let (successor, s) ← findGreaterCopy env s n (s.nodes + 1)
    match sfAddFreeList env s n (s.nodeNext successor) with
    | (none, s) => return (.failed, { s with errno := .enomem })
    | (some node, s) =>
      let s := s.setInfo (head node) fun i => { i with blockSize := Info.blocks n }
      let s := s.setInfo (s.memEnd - 16) fun i => { i with blockSize := Info.blocks n }
      let s := (s.setLinkNext (head node) x).setLinkPrev (head node) x
      return (.found node, (s.setLinkPrev x (head node)).setLinkNext x (head node))

theorem extendHeap_eq (env : Sfutil) (s : State) (size p : Nat) : extendHeap env s size p = (do
    let x := (extensionStart s).1
    match ← exactSize env (p + 1) s (extensionStart s).2 p with
    | (none, s) => return (.failed, s)
    | (some n, s') =>
      let s' := if (s.info (s.memEnd - 8)).prevAllocated then s'.unlink x else s'
      let s' := extendTags s' x size n
      if n = p then
        return (.returned (x + 8 * 24), s')
      else
        placeExtension env s' x n) := rfl

theorem extendTags_spec {x : Nat} (s : State) (size : Nat) (hend : s.memEnd = x + n) (hn : 64 ≤ n) :
    (extendTags s x size n).info x = extInfo size n ∧ (extendTags s x size n).nodes = s.nodes ∧
      (extendTags s x size n).memEnd = s.memEnd ∧
      ∀ w, (w < x ∨ x + n ≤ w) → (extendTags s x size n).mem w = s.mem w := by
  refine ⟨?_, rfl, rfl, fun w hw => ?_⟩
  · simp only [extendTags, epilogue, State.setInfo_memEnd, clearHeader_memEnd, hend]
    rw [State.info_setInfo_ne _ _ (by omega), State.info_write_ne _ (by omega),
      State.info_setInfo_ne _ _ (by omega), State.info_setInfo_self]
    simp (disch := omega) only [State.clearHeader, State.info_write_ne, State.info_write_self]
    rfl
  · simp only [extendTags, epilogue, State.setInfo_memEnd, clearHeader_memEnd, hend]
    rw [State.mem_setInfo_ne _ _ (by omega), State.mem_write_ne _ (by omega),
      State.mem_setInfo_ne _ _ (by omega), State.mem_setInfo_ne _ _ (by omega)]
    simp (disch := omega) only [State.clearHeader, State.mem_write_ne]

-- A walk reads the same when these words of the nodes stay.
theorem Listed.kept {v : State} (h : Listed env s lists) (hpos : ∀ a ∈ lists, 0 < a.size)
    (hnodes : v.nodes = s.nodes)
    (hsame : ∀ k i, i = 0 ∨ i = 16 ∨ i = 32 ∨ i = 40 →
      v.mem (env.slot k + i) = s.mem (env.slot k + i)) :
    Walkable env v (lists.map SizeList.node) ∧
      ∀ m ∈ lists.map SizeList.node, Owner env (v.linkNext (head m)) := by
  refine ⟨(h.walkable hpos).congr hnodes fun k i hi => hsame k i (by omega), fun m hm => ?_⟩
  obtain ⟨a, ha, rfl⟩ := List.mem_map.mp hm
  obtain ⟨k, -, -, hk⟩ := h.nodeSlots a ha
  have hlink : v.linkNext (head a.node) = s.linkNext (head a.node) := by
    rw [hk]
    exact hsame k 16 (by omega)
  rw [hlink]
  exact h.owner ha (h.first ha)

-- A header on a new page is neither in a list nor in a node.
structure Beyond (env : Sfutil) (x : Nat) : Prop where
  aligned : x % 16 = 0
  low : env.memStart + 4096 ≤ x
  slots : ∀ k, x + 24 ≤ env.slot k ∨ env.slot k + 48 ≤ x
  frame : x + 24 ≤ env.frame ∨ env.frame + 96 ≤ x

theorem Beyond.owner {x u : Nat} (h : Beyond env x) (hu : Owner env u) :
    u ≠ x ∧ u + 16 ≠ x ∧ u + 16 ≠ x + 8 := by
  have haligned := h.aligned
  have hlow := h.low
  rcases hu with ⟨-, hhigh, hmod⟩ | ⟨k, rfl⟩
  · omega
  · have hslots := h.slots k
    simp only [head]
    omega

-- The block is put behind a copy of a node, and taken out again.
theorem linkCopy_unlink {x u : Nat} (hdoc : Documented env) (haway : Away env) (hx : Beyond env x)
    (hu : s.linkNext (head env.frame) = u) (howner : Owner env u) :
    (s.linkFront (head env.frame) x).linkNext (head env.frame) = x ∧
      ((s.linkFront (head env.frame) x).unlink x).nodes = s.nodes ∧
      ((s.linkFront (head env.frame) x).unlink x).info x = s.info x ∧
      ∀ k i, i = 0 ∨ i = 16 ∨ i = 32 ∨ i = 40 →
        ((s.linkFront (head env.frame) x).unlink x).mem (env.slot k + i) =
          s.mem (env.slot k + i) := by
  have hframe := hx.frame
  obtain ⟨hux, hux16, hux8⟩ := hx.owner howner
  have hne : head env.frame ≠ x := by
    simp only [head]
    omega
  have hne' : head env.frame + 8 ≠ x + 16 := by
    simp only [head]
    omega
  have hfront := linkFront_mem hu hne hne'
  have hprev : (s.linkFront (head env.frame) x).linkPrev x = head env.frame := by
    rw [State.linkPrev, hfront, if_neg (by omega), if_neg (by omega), if_pos rfl]
  have hnext : (s.linkFront (head env.frame) x).linkNext x = u := by
    rw [State.linkNext, hfront, if_neg (by omega), if_neg (by omega), if_neg (by omega), if_pos rfl]
  have hmem := unlink_mem hprev hnext hne hne'
  have hsame (w : Nat) (h₁ : w ≠ x + 8) (h₂ : w ≠ x + 16) (h₃ : w ≠ u + 16)
      (h₄ : w ≠ head env.frame + 8) :
      ((s.linkFront (head env.frame) x).unlink x).mem w = s.mem w := by
    rw [hmem, if_neg h₃, if_neg h₄, hfront, if_neg h₄, if_neg h₃, if_neg h₂, if_neg h₁]
  refine ⟨?_, rfl, info_congr (hsame x (by omega) (by omega) (by omega) ?_),
    fun k i hi => hsame _ ?_ ?_ ?_ ?_⟩
  · rw [State.linkNext, hfront, if_pos rfl]
  · simp only [head]
    omega
  · have hslots := hx.slots k
    omega
  · have hslots := hx.slots k
    omega
  · rcases Nat.eq_or_lt_of_le (show 0 ≤ i by omega) with rfl | hlt
    · exact (howner.ne_node hdoc k (Or.inl rfl)).2
    · rcases hi with rfl | rfl | rfl | rfl
      · omega
      · rcases howner with ⟨hlow, hhigh, -⟩ | ⟨j, rfl⟩
        · have hslotAway := hdoc.slotAway k
          omega
        · exact slot_add_ne hdoc (by omega) (show 24 < 48 by omega) (Or.inr (by omega))
      · exact (howner.ne_node hdoc k (Or.inr (Or.inl rfl))).2
      · exact (howner.ne_node hdoc k (Or.inr (Or.inr rfl))).2
  · have hapart := haway.frameSlots k
    simp only [head]
    omega

-- The block is put into the empty list of a new node, and taken out again.
theorem linkNode_unlink {x k last : Nat} (hdoc : Documented env) (hx : Beyond env x)
    (hempty : s.linkNext (head (env.slot k)) = head (env.slot k)) (hlast : x + 24 ≤ last)
    (hslots : ∀ j, last < env.slot j ∨ env.slot j + 48 ≤ last) (f g : Info → Info) (s₁ s₂ : State)
    (h₁ : s₁ = ((s.setInfo (head (env.slot k)) f).setInfo last g))
    (h₂ : s₂ =
      (((s₁.setLinkNext (head (env.slot k)) x).setLinkPrev (head (env.slot k)) x).setLinkPrev x
        (head (env.slot k))).setLinkNext x (head (env.slot k))) :
    s₂.linkNext (head (env.slot k)) = x ∧ (s₂.unlink x).nodes = s.nodes ∧
    (s₂.unlink x).info x = s.info x ∧
      ∀ j i, i = 0 ∨ i = 16 ∨ i = 32 ∨ i = 40 → (s₂.unlink x).mem (env.slot j + i) = s.mem
      (env.slot j + i) := by
  have hslot := hx.slots k
  have hlastSlot := hslots k
  simp only [head] at hempty h₁ h₂ ⊢
  have hmem (w : Nat) : s₂.mem w = if w = x + 8 then env.slot k + 8
      else if w = x + 16 then env.slot k + 8
      else if w = env.slot k + 8 + 16 then x else if w = env.slot k + 8 + 8 then x
        else s₁.mem w := by
    rw [h₂]
    rfl
  have hsame (w : Nat) (hne : w ≠ last) (hne' : w ≠ env.slot k + 8) : s₁.mem w = s.mem w := by
    rw [h₁, State.mem_setInfo_ne _ _ hne, State.mem_setInfo_ne _ _ hne']
  have hprev : s₂.linkPrev x = env.slot k + 8 := by
    rw [State.linkPrev, hmem, if_neg (by omega), if_pos rfl]
  have hnext : s₂.linkNext x = env.slot k + 8 := by
    rw [State.linkNext, hmem, if_pos rfl]
  have hunlink := unlink_mem hprev hnext (by omega) (by omega)
  refine ⟨?_, by rw [h₂, h₁]; rfl, info_congr ?_, fun j i hi => ?_⟩
  · rw [State.linkNext, hmem, if_neg (by omega), if_neg (by omega), if_neg (by omega), if_pos rfl]
  · rw [hunlink, if_neg (by omega), if_neg (by omega), hmem, if_neg (by omega), if_neg (by omega),
      if_neg (by omega), if_neg (by omega), hsame x (by omega) (by omega)]
  · have hslotj := hx.slots j
    have hlastj := hslots j
    have hne (a : Nat) (ha : a < 48) (hia : i ≠ a) : env.slot j + i ≠ env.slot k + a :=
      slot_add_ne hdoc (by omega) ha (Or.inr hia)
    rw [hunlink, if_neg (by have := hne 24 (by omega) (by omega); omega)]
    by_cases hword : env.slot j + i = env.slot k + 8 + 8
    · rw [if_pos hword, hword]
      exact hempty.symm
    · rw [if_neg hword, hmem, if_neg (by omega), if_neg (by omega),
        if_neg (by have := hne 24 (by omega) (by omega); omega), if_neg hword,
        hsame _ (by omega) (by have := hne 8 (by omega) (by omega); omega)]

theorem sfAddFreeList_outside {size next j k w : Nat} (hdoc : Documented env)
    (hnext : next = env.slot k) (hprev : s.nodePrev (env.slot k) = env.slot j) (hk : k ≤ s.nodes)
    (hadd : sfAddFreeList env s size next = (some n, s'))
    (hw : ∀ i, w < env.slot i ∨ env.slot i + 48 ≤ w) :
    s'.mem w = s.mem w ∧ s'.memEnd = s.memEnd := by
  obtain ⟨t, ht, hend, -, hmem⟩ := sfAddFreeList_mem hdoc size hprev hk
  rw [hnext, ht] at hadd
  obtain rfl := (Prod.mk.inj hadd).2
  have h₁ := hw k
  have h₂ := hw j
  have h₃ := hw (s.nodes + 1)
  refine ⟨?_, hend⟩
  rw [hmem]
  iterate 7 rw [if_neg (by omega)]

theorem placeExtension_found {x : Nat} (hdoc : Documented env) (haway : Away env)
    (hlimit : env.memStart + 4096 ≤ env.memLimit) (h : Listed env t lists)
    (hpos : ∀ a ∈ lists, 0 < a.size) (hx : Beyond env x) (hend : t.memEnd = x + n) (hn : 64 ≤ n)
    (hslots : ∀ k, x + n ≤ env.slot k ∨ env.slot k + 48 ≤ x) :
    ∃ node s' nodes, placeExtension env t x n = .ok (.found node, s') ∧
      s'.linkNext (head node) = x ∧
      Walkable env (s'.unlink x) nodes ∧
        (∀ m ∈ nodes, Owner env ((s'.unlink x).linkNext (head m))) ∧
      (s'.unlink x).info x = t.info x := by
  have hframe := hx.frame
  have hfirst {s : State} {cursor : Nat} (h : Listed env s lists) (hoff : OffFrame env t s)
      (hcursor : cursor = env.frame ∨ cursor = env.frame + 48) :
      OffFrame env t (s.copyNode cursor (s.nodeNext (env.slot 0))) ∧
        CopyOf (s.copyNode cursor (s.nodeNext (env.slot 0))) cursor (firstNode env lists) := by
    obtain ⟨k, -, hk⟩ := (show Listed env s ([] ++ lists) from h).firstSlot
    rw [h.nodeNext_head, hk]
    obtain ⟨hoff', hcopy⟩ := copyNode_spec (k := k) haway s hcursor
    exact ⟨hoff.trans hoff', hcopy⟩
  have hcount {s : State} (h : Listed env s lists) : lists.length < s.nodes + 1 := by
    rw [h.nodeCount]
    omega
  obtain ⟨hoff₁, hcopy₁⟩ := hfirst h (.refl t) (Or.inl rfl)
  have h₁ := h.offFrame haway hlimit hoff₁
  obtain ⟨found, s₂, hfind, hoff₂, hfound⟩ :=
    findCopy_spec (n := n) haway hlimit (show Listed env _ ([] ++ lists) from h₁)
    hpos hcopy₁ (hcount h₁)
  replace hoff₂ := hoff₁.trans hoff₂
  have h₂ := h.offFrame haway hlimit hoff₂
  have hinfo {s : State} (hoff : OffFrame env t s) : s.info x = t.info x :=
    info_congr (hoff.same x (by omega))
  simp only [placeExtension]
  rw [hfind, Lib.ok_bind]
  cases found with
  | true =>
      obtain ⟨a, ha, hlink⟩ := hfound rfl
      obtain ⟨hhead, hnodes, hself, hsame⟩ :=
        linkCopy_unlink hdoc haway hx hlink (h₂.owner ha (h₂.first ha))
      obtain ⟨hwalk, howners⟩ := h₂.kept hpos hnodes hsame
      exact ⟨_, _, _, rfl, hhead, hwalk, howners, hself.trans (hinfo hoff₂)⟩
  | false =>
      obtain ⟨hoff₃, hcopy₃⟩ := hfirst h₂ hoff₂ (Or.inr rfl)
      have h₃ := h.offFrame haway hlimit hoff₃
      obtain ⟨front, back, s₄, hgreater, hoff₄, hcut⟩ := findGreaterCopy_spec (n := n) haway hlimit
        (show Listed env _ ([] ++ lists) from h₃) hpos hcopy₃ (hcount h₃)
      replace hoff₄ := hoff₃.trans hoff₄
      have h₄ := h.offFrame haway hlimit hoff₄
      rw [List.nil_append] at hcut
      subst hcut
      obtain ⟨hprev, hnext⟩ := h₄.nodePrev
      obtain ⟨j, hj, hplace⟩ := h₄.firstSlot
      obtain ⟨i, -, hprev⟩ := hprev
      obtain ⟨tail, htail⟩ := firstNode_spec env back
      obtain ⟨s₅, hadd, -, h₅⟩ : ∃ s', sfAddFreeList env s₄ n (firstNode env back) = _ ∧ _ ∧
          Listed env s' _ :=
        h₄.add hdoc htail
      rw [hplace] at hprev
      obtain ⟨hkept, hend₅⟩ := sfAddFreeList_outside (w := x) hdoc hplace hprev hj hadd fun k => by
        have hslot := hslots k
        omega
      have hnew : (⟨env.slot (s₄.nodes + 1), n, []⟩ : SizeList) ∈
          front ++ ⟨env.slot (s₄.nodes + 1), n, []⟩ :: back := by simp
      have hempty := h₅.first hnew
      rw [List.mem_singleton] at hempty
      have hend' : s₅.memEnd - 16 = x + n - 16 := by rw [hend₅, hoff₄.rest, ← hend]
      obtain ⟨hhead, hnodes, hself, hsame⟩ := linkNode_unlink hdoc hx hempty
        (show x + 24 ≤ s₅.memEnd - 16 by omega) (fun k => by have hslot := hslots k; omega)
          (fun i => { i with blockSize := Info.blocks n })
        (fun i => { i with blockSize := Info.blocks n }) _ _ rfl rfl
      have hpos₅ (a : SizeList) (ha : a ∈ front ++ ⟨env.slot (s₄.nodes + 1), n, []⟩ :: back) :
          0 < a.size := by
        rcases mem_middle.mp ha with rfl | ha
        · exact (by omega : 0 < n)
        · exact hpos a ha
      obtain ⟨hwalk, howners⟩ := h₅.kept hpos₅ hnodes hsame
      simp only [Bool.false_eq_true, if_false]
      rw [hgreater, Lib.ok_bind]
      simp only [hnext, hadd]
      exact ⟨_, _, _, rfl, hhead, hwalk, howners,
        (hself.trans (info_congr hkept)).trans (hinfo hoff₄)⟩

theorem pagesFor_spec (hp : 0 < p) (hmod : p % 4096 ≠ 0) :
    p < 4096 * pagesFor 0 p ∧ 4096 * pagesFor 0 p < p + 4096 ∧ pagesFor 0 p < p + 1 := by
  rw [pagesFor, Nat.sub_zero]
  omega

theorem Extends.limit {pages : Nat} (h : Extends env s pages) (hpages : 0 < pages) :
    s.memEnd + 4096 * pages ≤ env.memLimit := by
  obtain ⟨k, rfl⟩ : ∃ k, pages = k + 1 := ⟨pages - 1, by omega⟩
  exact (h k (by omega)).2

-- The heap of one page gets as many pages as the block needs, and some bytes more
-- than that.
theorem extendHeap_found (hdoc : Documented env) (haway : Away env) (h : Listed env s lists)
    (hpos : ∀ a ∈ lists, 0 < a.size) (hend : s.memEnd = env.memStart + 4096)
    (hbit : (s.info (s.memEnd - 8)).prevAllocated = false) (hext : Extends env s (pagesFor 0 p))
    (hp : 0 < p) (hsmall : p ≤ 2 ^ 31 - 4096) (hmod : p % 4096 ≠ 0) (size : Nat) :
    ∃ node s' nodes, extendHeap env s size p = .ok (.found node, s') ∧
      s'.linkNext (head node) = s.memEnd ∧
      Walkable env (s'.unlink s.memEnd) nodes ∧
      (∀ m ∈ nodes, Owner env ((s'.unlink s.memEnd).linkNext (head m))) ∧
      (s'.unlink s.memEnd).info s.memEnd = extInfo size (4096 * pagesFor 0 p) := by
  obtain ⟨hlow, hhigh, hfuel⟩ := pagesFor_spec hp hmod
  have hpages : 0 < pagesFor 0 p := by
    by_contra hzero
    rw [Nat.eq_zero_of_not_pos hzero] at hlow
    omega
  have hlimit := hext.limit hpages
  have hexact := (@exactSize_spec env s 0 p _ hfuel).1 hext
  have hpage : 4096 ≤ 4096 * pagesFor 0 p := Nat.le_mul_of_pos_right _ hpages
  have hgrown : (grown s (pagesFor 0 p)).memEnd = s.memEnd + 4096 * pagesFor 0 p := rfl
  rw [Nat.zero_add] at hexact
  generalize 4096 * pagesFor 0 p = n at *
  have hint : throughInt n = n := by
    simp only [throughInt]
    rw [if_pos (by omega)]
    omega
  have hfit : ¬n = p := by omega
  have haligned := hdoc.aligned
  have hx : Beyond env s.memEnd := by
    refine ⟨by omega, by omega, fun k => ?_, ?_⟩
    · have hslots := haway.slots k
      omega
    · have hframe := haway.frame
      omega
  obtain ⟨hinfo, hnodes, hend', hsame⟩ :=
    extendTags_spec (grown s (pagesFor 0 p)) size hgrown (by omega)
  have hstart : extensionStart s = (s.memEnd, 0) := by
    rw [extensionStart, hbit]
    rfl
  have hlisted : Listed env (extendTags (grown s (pagesFor 0 p)) s.memEnd size n) lists := by
    refine h.congr hnodes fun w hw => hsame w ?_
    rcases hw with ⟨k, -, hk⟩ | ⟨l, hl, y, hy, hw⟩
    · have hslots := haway.slots k
      omega
    · obtain ⟨-, hheap, -⟩ := h.inHeap l hl y hy
      omega
  rw [extendHeap_eq, hstart]
  simp only [hexact, Lib.ok_bind, hbit, hint, Bool.false_eq_true, if_false, if_neg hfit]
  generalize extendTags (grown s (pagesFor 0 p)) s.memEnd size n = t at hinfo hnodes hend' hlisted ⊢
  obtain ⟨node, s', nodes, heq, hhead, hwalk, howners, hself⟩ :=
    placeExtension_found hdoc haway (by omega) hlisted
    hpos hx (hend'.trans hgrown) (by omega) (fun k => by have hslots := haway.slots k; omega)
  exact ⟨node, s', nodes, heq, hhead, hwalk, howners, hself.trans hinfo⟩

end CSE320.Sfmm
