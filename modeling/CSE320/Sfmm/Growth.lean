import CSE320.Sfmm.Malloc

namespace CSE320.Sfmm

variable (env : Sfutil)

-- The next calls of sf_mem_grow succeed.
def Extends (s : State) (pages : Nat) : Prop :=
  ∀ j < pages, env.grows (s.growCalls + j) = true ∧ s.memEnd + 4096 * (j + 1) ≤ env.memLimit

instance (s : State) (pages : Nat) : Decidable (Extends env s pages) :=
  inferInstanceAs (Decidable (∀ j < pages, _ ∧ _))

-- How many pages bring a size to the padded one.
def pagesFor (size paddSize : Nat) : Nat := (paddSize - size + 4095) / 4096

def grown (s : State) (pages : Nat) : State :=
  { s with memEnd := s.memEnd + 4096 * pages, growCalls := s.growCalls + pages }

-- The nodes and the frame of sf_malloc are apart from every page that the heap can
-- have, and from each other.
structure Away : Prop where
  slots : ∀ k, env.slot k + 48 ≤ env.memStart ∨ env.memLimit ≤ env.slot k
  frame : env.frame + 96 ≤ env.memStart ∨ env.memLimit ≤ env.frame
  frameSlots : ∀ k, env.frame + 96 ≤ env.slot k ∨ env.slot k + 48 ≤ env.frame

-- What a walk through the nodes reads.
structure Walkable (s : State) (nodes : List Nat) : Prop where
  ring : SizeRing s (env.slot 0) nodes
  count : nodes.length ≤ s.nodes
  slots : ∀ n ∈ nodes, ∃ k, n = env.slot k
  last : ∃ k, s.nodePrev (env.slot 0) = env.slot k ∧ s.nodeNext (env.slot k) = env.slot 0

variable {env} {s s' : State} {nodes : List Nat} {lists pre post : List SizeList}
  {size p fuel x y n : Nat}

theorem extends_succ {pages : Nat} : Extends env s (pages + 1) ↔ Grows env s ∧ Extends env
    (grown s 1) pages := by
  constructor
  · intro h
    refine ⟨⟨(h 0 (by omega)).1, ?_⟩, fun j hj => ?_⟩
    · have hlimit := (h 0 (by omega)).2
      rw [pageSz]
      omega
    · obtain ⟨hgrows, hlimit⟩ := h (j + 1) (by omega)
      rw [Nat.mul_succ, ← Nat.add_assoc, Nat.add_right_comm] at hlimit
      simp only [grown, Nat.mul_one]
      exact ⟨by rwa [Nat.add_assoc, Nat.add_comm 1 j], hlimit⟩
  · rintro ⟨⟨hgrows, hlimit⟩, h⟩ j hj
    cases j with
    | zero =>
        rw [pageSz] at hlimit
        exact ⟨hgrows, by omega⟩
    | succ j =>
        obtain ⟨hgrows', hlimit'⟩ := h j (by omega)
        simp only [grown, Nat.mul_one] at hgrows' hlimit'
        refine ⟨by rwa [Nat.add_assoc, Nat.add_comm 1 j] at hgrows', ?_⟩
        rw [Nat.mul_succ, ← Nat.add_assoc, Nat.add_right_comm]
        exact hlimit'

-- The heap grows by as many pages as are missing, or until a page is refused.
theorem exactSize_spec (hfuel : pagesFor size p < fuel) :
    (Extends env s (pagesFor size p) → exactSize env fuel s size p =
      .ok (some (throughInt (size + 4096 * pagesFor size p)), grown s (pagesFor size p))) ∧
    (¬Extends env s (pagesFor size p) →
      ∃ s', exactSize env fuel s size p = .ok (none, s') ∧ s'.mem = s.mem ∧
        s'.errno = .enomem) := by
  induction fuel generalizing s size with
  | zero => omega
  | succ fuel ih =>
      by_cases hlt : size < p
      · have hpages : pagesFor size p = pagesFor (size + 4096) p + 1 := by
          simp only [pagesFor]
          omega
        rw [hpages, extends_succ]
        by_cases hgrows : Grows env s
        · have hgrow : sfMemGrow env s = (some s.memEnd, grown s 1) := if_pos hgrows
          have hstep : exactSize env (fuel + 1) s size p =
              exactSize env fuel (grown s 1) (size + 4096) p := by
            rw [exactSize, if_pos hlt, hgrow]
            simp only [grown, Nat.add_sub_cancel_left]
          obtain ⟨hyes, hno⟩ := @ih (grown s 1) (size + 4096) (by omega)
          rw [hstep, and_iff_right hgrows]
          refine ⟨fun hext => ?_, hno⟩
          rw [hyes hext]
          have hmul : 4096 * (pagesFor (size + 4096) p + 1) =
              4096 + 4096 * pagesFor (size + 4096) p := by
            rw [Nat.mul_succ, Nat.add_comm]
          simp only [hmul, grown, Nat.mul_one, Nat.add_assoc, Nat.add_comm 1]
        · have hgrow : sfMemGrow env s =
              (none, { s with growCalls := s.growCalls + 1, errno := .enomem }) :=
            if_neg hgrows
          refine ⟨fun hext => absurd hext.1 hgrows, fun _ => ?_⟩
          rw [exactSize, if_pos hlt, hgrow]
          exact ⟨_, rfl, rfl, rfl⟩
      · have hpages : pagesFor size p = 0 := by
          simp only [pagesFor]
          omega
        rw [hpages]
        refine ⟨fun _ => ?_, fun hno => absurd (fun j hj => by omega) hno⟩
        rw [exactSize, if_neg hlt]
        simp only [grown, Nat.mul_zero, Nat.add_zero]

-- The loop over the sizes ends.
theorem findSize_from {sentinel cursor : Nat} {back : List Nat} {post : List Nat}
    (hzero : s.nodeSize sentinel = 0) (hpos : ∀ node ∈ post, 0 < s.nodeSize node)
    (hchain : List.IsChain (fun u v => s.nodeNext u = v) (post ++ [sentinel]))
    (hcursor : post ++ [sentinel] = cursor :: back) (hfuel : post.length < fuel) :
    ∃ found, findSize s size fuel cursor = .ok found ∧ ∀ node ∈ found, node ∈ post := by
  obtain ⟨fuel, rfl⟩ : ∃ k, fuel = k + 1 := ⟨fuel - 1, by omega⟩
  induction post generalizing cursor back fuel with
  | nil =>
      obtain ⟨rfl, -⟩ := List.cons.inj hcursor
      exact ⟨none, by rw [findSize, if_pos hzero], nofun⟩
  | cons a rest ih =>
      obtain ⟨rfl, -⟩ := List.cons.inj hcursor
      have hne := Nat.ne_of_gt (hpos a List.mem_cons_self)
      obtain ⟨next, tail, hnext⟩ := Lib.cut_behind sentinel rest
      have hstep : s.nodeNext a = next := by
        rw [List.cons_append, hnext] at hchain
        exact (List.isChain_cons_cons.mp hchain).1
      rw [findSize, if_neg hne]
      by_cases hsize : s.nodeSize a = size
      · exact ⟨some a, if_pos hsize, by simp⟩
      · rw [if_neg hsize, hstep]
        rw [List.length_cons] at hfuel
        obtain ⟨fuel, rfl⟩ : ∃ k, fuel = k + 1 := ⟨fuel - 1, by omega⟩
        obtain ⟨found, heq, hmem⟩ := ih (fun node hnode => hpos node (List.mem_cons_of_mem _ hnode))
          hchain.tail hnext fuel (by omega)
        exact ⟨found, heq, fun node hnode => List.mem_cons_of_mem _ (hmem node hnode)⟩

theorem Walkable.findSize (h : Walkable env s nodes) (size : Nat) :
    ∃ found, Sfmm.findSize s size (s.nodes + 1) (s.nodeNext (env.slot 0)) = .ok found ∧
      ∀ node ∈ found, node ∈ nodes := by
  obtain ⟨first, back, hfirst⟩ := Lib.cut_behind (env.slot 0) nodes
  have hlinks := h.ring.chain
  rw [hfirst] at hlinks
  rw [(List.isChain_cons_cons.mp hlinks).1]
  exact findSize_from h.ring.sentinelSize h.ring.positive h.ring.chain.tail hfirst
    (Nat.lt_succ_of_le h.count)

theorem Walkable.congr (h : Walkable env s nodes) (hnodes : s'.nodes = s.nodes)
    (hsame : ∀ k a, a = 0 ∨ a = 32 ∨ a = 40 → s'.mem (env.slot k + a) = s.mem (env.slot k + a)) :
    Walkable env s' nodes := by
  have hslot (u : Nat) (hu : u ∈ env.slot 0 :: (nodes ++ [env.slot 0])) : ∃ k, u = env.slot k := by
    simp only [List.mem_cons, List.mem_append, List.not_mem_nil, or_false] at hu
    rcases hu with rfl | hu | rfl
    · exact ⟨0, rfl⟩
    · exact h.slots u hu
    · exact ⟨0, rfl⟩
  have hsize (u : Nat) (hu : ∃ k, u = env.slot k) : s'.nodeSize u = s.nodeSize u := by
    obtain ⟨k, rfl⟩ := hu
    exact hsame k 0 (Or.inl rfl)
  have hnext (u : Nat) (hu : ∃ k, u = env.slot k) : s'.nodeNext u = s.nodeNext u := by
    obtain ⟨k, rfl⟩ := hu
    exact hsame k 32 (Or.inr (Or.inl rfl))
  refine ⟨⟨?_, ?_, fun node hnode => ?_⟩, by rw [hnodes]; exact h.count, h.slots, ?_⟩
  · refine h.ring.chain.imp_of_mem_imp fun u v hu _ huv => ?_
    rw [hnext u (hslot u hu)]
    exact huv
  · rw [hsize _ ⟨0, rfl⟩]
    exact h.ring.sentinelSize
  · rw [hsize _ (h.slots node hnode)]
    exact h.ring.positive node hnode
  · obtain ⟨k, hprev, hlast⟩ := h.last
    refine ⟨k, ?_, by rw [hnext _ ⟨k, rfl⟩]; exact hlast⟩
    rw [State.nodePrev, hsame 0 40 (Or.inr (Or.inr rfl))]
    exact hprev

-- The header of the block that is handed out, also where only 16 bytes are left and
-- the header of the rest covers the word behind the block.
theorem cutTags_header (size : Nat) (hn : (s.info x).size = n) (hp : 32 ≤ p) (hle : p + 16 ≤ n) :
    (cutTags env s size p x).info x = handed env size p x (s.info x) ∧
      (cutTags env s size p x).nodes = s.nodes ∧
      ∀ w, (w < x ∨ x + n + 8 ≤ w) → (cutTags env s size p x).mem w = s.mem w := by
  have hclear : (s.clearHeader (x + p)).info x = s.info x := by
    simp (disch := omega) only [State.clearHeader, State.info_write_ne]
  simp only [cutTags]
  rw [State.info_setInfo_ne _ _ (by omega), hclear, hn]
  split
  · rename_i hfirst
    refine ⟨?_, rfl, fun w hw => ?_⟩
    · rw [State.info_setInfo_self, State.info_setInfo_self, handed, if_pos hfirst]
      rw [State.info_setInfo_ne _ _ (by omega), State.info_setInfo_ne _ _ (by omega), hclear]
    · simp (disch := omega) only [State.mem_setInfo_ne, State.clearHeader, State.mem_write_ne]
  · rename_i hfirst
    refine ⟨?_, rfl, fun w hw => ?_⟩
    · rw [State.info_setInfo_self, handed, if_neg hfirst]
      rw [State.info_setInfo_ne _ _ (by omega), State.info_setInfo_ne _ _ (by omega), hclear]
    · simp (disch := omega) only [State.mem_setInfo_ne, State.clearHeader, State.mem_write_ne]

-- The rest goes into a list, and the header of the block in front of it stays.
theorem splitBlock_info {node : Nat} (hdoc : Documented env) (hx : s.linkNext (head node) = x)
    (hwalk : Walkable env (cutBlock env s size p x) nodes)
    (hslots : ∀ k, x < env.slot k ∨ env.slot k + 48 ≤ x)
    (hrest : ∀ k, x + p + 24 ≤ env.slot k ∨ env.slot k + 48 ≤ x + p)
    (hfirst : ∀ m ∈ nodes, (cutBlock env s size p x).linkNext (head m) + 16 ≠ x) :
    ∃ s', splitBlock env s size p node = .ok (x + 8, s') ∧
      s'.info x = (cutBlock env s size p x).info x := by
  rw [splitBlock]
  simp only [hx]
  generalize cutBlock env s size p x = v at hwalk hfirst ⊢
  generalize subSize (v.nodeSize node) p = freeSize
  obtain ⟨found, hfind, hfound⟩ := hwalk.findSize freeSize
  rw [hfind, Lib.ok_bind]
  cases found with
  | some c =>
      have hc := hfound c rfl
      obtain ⟨k, hk⟩ := hwalk.slots c hc
      have hslot := hslots k
      have hrest' := hrest k
      have hnext := hfirst c hc
      refine ⟨_, rfl, info_congr ?_⟩
      simp only [State.linkFront, State.setLinkNext, State.setLinkPrev]
      have hlink :
          ((v.write (x + p + 8) (v.linkNext (head c))).write (x + p + 16) (head c)).linkNext
          (head c) =
          v.linkNext (head c) := by
        simp only [head]
        rw [State.linkNext, State.mem_write_ne _ (by omega), State.mem_write_ne _ (by omega)]
        rfl
      rw [hlink]
      simp only [head] at hnext ⊢
      rw [State.mem_write_ne _ (by omega), State.mem_write_ne _ (Ne.symm hnext),
        State.mem_write_ne _ (by omega), State.mem_write_ne _ (by omega)]
  | none =>
      obtain ⟨k, hprev, hlast⟩ := hwalk.last
      obtain ⟨s', hadd, -, -, hmem⟩ := sfAddFreeList_mem hdoc freeSize hprev (Nat.zero_le v.nodes)
      simp only [hprev, hlast, hadd]
      refine ⟨_, rfl, info_congr ?_⟩
      have h₀ := hslots 0
      have h₁ := hslots k
      have h₂ := hslots (v.nodes + 1)
      simp only [State.setLinkNext, State.setLinkPrev, head]
      rw [State.mem_setInfo_ne _ _ (by omega)]
      iterate 4 rw [State.mem_write_ne _ (by omega)]
      rw [hmem]
      iterate 7 rw [if_neg (by omega)]

theorem Listed.nodePrev (h : Listed env s (pre ++ post)) :
    (∃ k ≤ s.nodes, s.nodePrev (firstNode env post) = env.slot k) ∧
      s.nodeNext (s.nodePrev (firstNode env post)) = firstNode env post := by
  obtain ⟨back, hback⟩ := firstNode_spec env post
  have hring := h.nodeRing
  rw [List.map_append] at hring
  obtain ⟨front, q, hq⟩ := Lib.cut_before (env.slot 0) (pre.map SizeList.node)
  obtain ⟨-, ⟨hnext, hprev⟩, -⟩ := hring.cut hq hback
  rw [hprev]
  refine ⟨?_, hnext⟩
  have hmem : q ∈ env.slot 0 :: pre.map SizeList.node := by
    rw [hq]
    simp
  rcases List.mem_cons.mp hmem with rfl | hmem
  · exact ⟨0, Nat.zero_le _, rfl⟩
  · obtain ⟨l, hl, rfl⟩ := List.mem_map.mp hmem
    obtain ⟨k, -, hk, he⟩ := h.nodeSlots l (List.mem_append_left _ hl)
    exact ⟨k, hk, he⟩

theorem Listed.walkable (h : Listed env s lists) (hpos : ∀ l ∈ lists, 0 < l.size) :
    Walkable env s (lists.map SizeList.node) := by
  refine ⟨h.sizeRing hpos, by rw [List.length_map, h.nodeCount], fun n hn => ?_, ?_⟩
  · obtain ⟨l, hl, rfl⟩ := List.mem_map.mp hn
    obtain ⟨k, -, -, he⟩ := h.nodeSlots l hl
    exact ⟨k, he⟩
  · have hlisted : Listed env s (lists ++ []) := by rwa [List.append_nil]
    obtain ⟨⟨k, -, hk⟩, hnext⟩ := hlisted.nodePrev
    rw [hk] at hnext
    exact ⟨k, hk, hnext⟩

-- The first block of a list, or the head of an empty one.
theorem Listed.first (h : Listed env s lists) {l : SizeList} (hl : l ∈ lists) :
    s.linkNext (head l.node) ∈ head l.node :: l.members := by
  obtain ⟨c, back, hc⟩ := Lib.cut_behind (head l.node) l.members
  rw [(h.ring l hl).next_head hc]
  have hmem : c ∈ l.members ++ [head l.node] := by
    rw [hc]
    exact List.mem_cons_self
  simpa [or_comm] using hmem

theorem splitBlock_fits {before behind : List Blk} {b : Blk} {epi : Info} {l : SizeList}
    {rest : List Nat} (hdoc : Documented env) (h : Shows env s (before ++ b :: behind) epi lists [])
    (hx : x = firstBlock env + total before) (hl : l ∈ lists) (hm : l.members = x :: rest)
    (size : Nat) (hp : 32 ≤ p) (hle : p + 16 ≤ l.size) :
    ∃ s', splitBlock env s size p l.node = .ok (x + 8, s') ∧
      s'.info x = handed env size p x b.info := by
  have hat := at_middle (firstBlock env) before behind b
  rw [← hx] at hat
  obtain ⟨hsize, hfree⟩ := h.member hat hl (by simp [hm])
  have hbound := h.tiled.bounds hat
  have hnext : s.linkNext (head l.node) = x := by
    have hring := h.listed.ring l hl
    rw [hm] at hring
    exact hring.next_head rfl
  obtain ⟨lists', hunlink, -, -⟩ := h.unlink hdoc ⟨b, hat, hfree, rfl⟩ List.not_mem_nil
  have hinfo := hunlink.tiled.header x b hat
  obtain ⟨hself, hnodes, hsame⟩ := @cutTags_header env (s.unlink x) p x b.size size
    (by rw [hinfo]; rfl) hp (by omega)
  have hslot (k a : Nat) (ha : a < 48) : (cutBlock env s size p x).mem (env.slot k + a) =
      (s.unlink x).mem (env.slot k + a) := by
    have haway := hdoc.slotAway k
    exact hsame _ (by omega)
  have hwalk : Walkable env (cutBlock env s size p x) (lists'.map SizeList.node) :=
    (hunlink.listed.walkable hunlink.pos).congr hnodes fun k a ha => hslot k a (by omega)
  have haway (k : Nat) := hdoc.slotAway k
  have hfirst (m : Nat) (hm : m ∈ lists'.map SizeList.node) :
      (cutBlock env s size p x).linkNext (head m) + 16 ≠ x := by
    obtain ⟨l', hl', rfl⟩ := List.mem_map.mp hm
    obtain ⟨k, -, -, hk⟩ := hunlink.listed.nodeSlots l' hl'
    have hlink : (cutBlock env s size p x).linkNext (head l'.node) =
        (s.unlink x).linkNext (head l'.node) := by
      rw [hk]
      exact hslot k 16 (by omega)
    rw [hlink]
    intro he
    have hword := (hunlink.listed.link_words hl' (hunlink.listed.first hl')).2
    rw [he] at hword
    exact hunlink.no_link hdoc hat (Or.inl rfl) hword
  obtain ⟨s', heq, hkeep⟩ := splitBlock_info hdoc hnext hwalk (fun k => by have := haway k; omega)
    (fun k => by have := haway k; omega) hfirst
  exact ⟨s', heq, by rw [hkeep, cutBlock_eq, hself, hinfo]⟩

end CSE320.Sfmm
