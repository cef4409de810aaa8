import CSE320.Sfmm.Search
import CSE320.Sfmm.Tags

namespace CSE320.Sfmm

def FreeFrom (a : Nat) (blocks : List Blk) (x n : Nat) : Prop :=
  ∃ b, At a blocks x b ∧ b.info.allocated = false ∧ b.size = n

variable (env : Sfutil)

def FreeAt (blocks : List Blk) (x n : Nat) : Prop := FreeFrom (firstBlock env) blocks x n

-- The block x is in a list for the size n.
def On (lists : List SizeList) (x n : Nat) : Prop := ∃ l ∈ lists, x ∈ l.members ∧ l.size = n

-- A heap of one page: the blocks tile it, and each free block is in a list of its
-- size, apart from those that a call has just taken out.
structure Shows (s : State) (blocks : List Blk) (epi : Info) (lists : List SizeList)
    (out : List Nat) : Prop where
  tiled : Tiled env s blocks epi
  listed : Listed env s lists
  free : ∀ x n, On lists x n ↔ FreeAt env blocks x n ∧ x ∉ out
  sizes : ∀ l ∈ lists, 32 ≤ l.size
  whole : ∃ l ∈ lists, l.size = 4048
  closed : epi.allocated = true ∧ epi.size = 0

-- No list for the size has more than one block, so that both forms of the
-- insertion do the same.
def RoomyLists (lists : List SizeList) (n : Nat) : Prop :=
  ∀ l, lists.find? (n ≤ ·.size) = some l → l.size = n → l.members.length ≤ 1

-- A way to link a block into a list that is empty.
def LinksNew (link : State → Nat → Nat → State) : Prop :=
  ∀ s pre l post x, Listed env s (pre ++ l :: post) → l.members = [] → InHeap env x →
    (∀ a ∈ pre ++ l :: post, x ∉ a.members) →
    Listed env (link s (head l.node) x) (pre ++ { l with members := x :: l.members } :: post) ∧
      Relinked s (link s (head l.node) x) (x :: head l.node :: l.members)

-- What is stored in the allocated blocks stays.
def SamePayloads (blocks : List Blk) (s s' : State) : Prop :=
  ∀ y c, At (firstBlock env) blocks y c → c.info.allocated = true →
    ∀ w, y < w → w < y + c.size → s'.mem w = s.mem w

-- What an insertion for the size n does to the list of sizes.
structure Inserted (n : Nat) (lists lists' : List SizeList) : Prop where
  above : ∀ m, n < m → lists'.filter (m ≤ ·.size) = lists.filter (m ≤ ·.size)
  sorted : (lists.map SizeList.size).Pairwise (· < ·) ↔ (lists'.map SizeList.size).Pairwise (· < ·)

variable {env} {s s' : State} {blocks : List Blk} {epi : Info} {lists pre post : List SizeList}
  {out : List Nat} {l : SizeList} {x n w : Nat} {b : Blk}

theorem on_middle {y m : Nat} :
    On (pre ++ l :: post) y m ↔ (y ∈ l.members ∧ l.size = m) ∨ On (pre ++ post) y m := by
  simp only [On, mem_middle, or_and_right, exists_or, exists_eq_left]

theorem sizes_of_nodes {lists' : List SizeList}
    (h : lists'.map (fun l => (l.node, l.size)) = lists.map (fun l => (l.node, l.size))) :
    lists'.map SizeList.size = lists.map SizeList.size := by
  have hmap := congrArg (List.map Prod.snd) h
  simpa [List.map_map, Function.comp_def] using hmap

theorem FreeAt.unique {m : Nat} (h : Tiled env s blocks epi) (hn : FreeAt env blocks x n)
    (hm : FreeAt env blocks x m) : n = m := by
  obtain ⟨b, hb, -, rfl⟩ := hn
  obtain ⟨c, hc, -, rfl⟩ := hm
  have hb' := h.bounds hb
  have hc' := h.bounds hc
  obtain ⟨-, rfl⟩ := hb.unique hc (w := x) (by omega) (by omega)
  rfl

theorem Tiled.inHeap (hdoc : Documented env) (h : Tiled env s blocks epi)
    (hx : At (firstBlock env) blocks x b) : InHeap env x := by
  have hb := h.bounds hx
  have hmod := hx.mod
  have haligned := hdoc.aligned
  simp only [firstBlock] at hmod
  exact ⟨hb.1, by omega, by omega⟩

theorem Listed.setInfo (h : Listed env s lists) {f : Info → Info} (hw : ¬LinkWord env s lists w) :
    Listed env (s.setInfo w f) lists := by
  refine h.congr rfl fun v hv => s.mem_setInfo_ne f ?_
  rintro rfl
  exact hw hv

theorem Listed.write {v : Nat} (h : Listed env s lists) (hw : ¬LinkWord env s lists w) :
    Listed env (s.write w v) lists := by
  refine h.congr rfl fun u hu => s.mem_write_ne ?_
  rintro rfl
  exact hw hu

-- A block is in no other place of any list.
theorem Listed.alone {first second : List Nat} (h : Listed env s (pre ++ l :: post))
    (hm : l.members = first ++ x :: second) :
    x ∉ first ++ second ∧ ∀ a ∈ pre ++ post, x ∉ a.members := by
  have hnodup := h.nodup
  simp only [List.flatMap_append, List.flatMap_cons, hm] at hnodup
  have hperm : (pre.flatMap SizeList.members ++ (first ++ x :: second ++
      post.flatMap SizeList.members)).Perm (x :: (first ++ second ++
      (pre ++ post).flatMap SizeList.members)) := by
    rw [List.flatMap_append]
    refine (List.perm_append_comm_assoc _ _ _).trans ?_
    rw [List.append_assoc, List.cons_append]
    refine List.perm_middle.trans ?_
    simp
  rw [hperm.nodup_iff, List.nodup_cons, List.mem_append, not_or, List.mem_flatMap] at hnodup
  exact ⟨hnodup.1.1, fun a ha hxa => hnodup.1.2 ⟨a, ha, hxa⟩⟩

-- Links are in free blocks and in the nodes.
theorem Relinked.samePayloads {us : List Nat} (hdoc : Documented env) (h : Relinked s s' us)
    (ht : Tiled env s blocks epi) (hus : ∀ u ∈ us, (∃ k, u = head (env.slot k)) ∨
      ∃ b, At (firstBlock env) blocks u b ∧ b.info.allocated = false) : SamePayloads env
        blocks s s' := by
  intro y c hc halloc w hlow hhigh
  have hbc := ht.bounds hc
  refine h.same w fun u hu => ?_
  have hlink (i : Nat) (hi : i = 8 ∨ i = 16) : w ≠ u + i := by
    rintro rfl
    rcases hus u hu with ⟨k, rfl⟩ | ⟨b, hb, hfree⟩
    · have haway := hdoc.slotAway k
      simp only [head] at hlow hhigh
      omega
    · have hbb := ht.bounds hb
      obtain ⟨-, rfl⟩ := hc.unique hb (w := u + i) (by omega) (by omega)
      rw [halloc] at hfree
      cases hfree
  exact ⟨hlink 8 (Or.inl rfl), hlink 16 (Or.inr rfl)⟩

theorem HeapKept.samePayloads (h : HeapKept env s s') (ht : Tiled env s blocks epi) :
    SamePayloads env blocks s s' := by
  intro y c hc _ w hlow hhigh
  have hbc := ht.bounds hc
  exact h.2 w (by omega) (by omega)

theorem SamePayloads.trans {s'' : State} (h : SamePayloads env blocks s s')
    (h' : SamePayloads env blocks s' s'') :
    SamePayloads env blocks s s'' :=
  fun y c hc halloc w hlow hhigh =>
    (h' y c hc halloc w hlow hhigh).trans (h y c hc halloc w hlow hhigh)

namespace Shows

theorem memEnd (h : Shows env s blocks epi lists out) : s.memEnd - 8 = env.memStart + 4088 := by
  rw [h.tiled.memEnd]
  omega

theorem pos (h : Shows env s blocks epi lists out) (l : SizeList) (hl : l ∈ lists) :
    0 < l.size := by
  have hl' := h.sizes l hl
  omega

theorem link_inside (hdoc : Documented env) (h : Shows env s blocks epi lists out)
    (hw : LinkWord env s lists w) (hheap : env.memStart ≤ w ∧ w < env.memStart + 4096) :
    ∃ y c, At (firstBlock env) blocks y c ∧ (w = y + 8 ∨ w = y + 16) ∧ ∃ n, On lists y n := by
  rcases hw with ⟨k, -, hk⟩ | ⟨l, hl, y, hy, hwy⟩
  · have haway := hdoc.slotAway k
    omega
  · have hon : On lists y l.size := ⟨l, hl, hy, rfl⟩
    obtain ⟨⟨c, hc, -⟩, -⟩ := (h.free y l.size).mp hon
    exact ⟨y, c, hc, hwy, _, hon⟩

-- Headers and last words are no links, and a block in no list has no links.
theorem no_link (hdoc : Documented env) (h : Shows env s blocks epi lists out)
    (hx : At (firstBlock env) blocks x b)
    (hw : w = x ∨ w = x + b.size - 8 ∨ (x ≤ w ∧ w < x + b.size ∧ ∀ n, ¬On lists x n)) :
    ¬LinkWord env s lists w := by
  intro hlink
  have hb := h.tiled.bounds hx
  obtain ⟨y, c, hy, hwy, m, hon⟩ := h.link_inside hdoc hlink (by omega)
  have hc := h.tiled.bounds hy
  obtain ⟨rfl, rfl⟩ := hx.unique hy (w := w) (by omega) (by omega)
  rcases hw with rfl | rfl | ⟨-, -, hno⟩
  · omega
  · omega
  · exact hno m hon

theorem no_link_epilogue (hdoc : Documented env) (h : Shows env s blocks epi lists out) :
    ¬LinkWord env s lists (env.memStart + 4088) := by
  intro hlink
  obtain ⟨y, c, hy, hwy, -⟩ := h.link_inside hdoc hlink (by omega)
  have hc := h.tiled.bounds hy
  omega

theorem not_on_allocated (h : Shows env s blocks epi lists out)
    (hx : At (firstBlock env) blocks x b) (halloc : b.info.allocated = true) (n : Nat) :
    ¬On lists x n := by
  intro hon
  obtain ⟨⟨c, hc, hfree, -⟩, -⟩ := (h.free x n).mp hon
  have hb := h.tiled.bounds hx
  have hc' := h.tiled.bounds hc
  obtain ⟨-, rfl⟩ := hx.unique hc (w := x) (by omega) (by omega)
  rw [halloc] at hfree
  cases hfree

theorem not_on_out (h : Shows env s blocks epi lists out) (hx : x ∈ out) (n : Nat) :
    ¬On lists x n :=
  fun hon => ((h.free x n).mp hon).2 hx

theorem ring_owner (h : Shows env s blocks epi lists out) (hl : l ∈ lists) {u : Nat}
    (hu : u ∈ head l.node :: l.members) : (∃ k, u = head (env.slot k)) ∨
      ∃ b, At (firstBlock env) blocks u b ∧ b.info.allocated = false := by
  rcases List.mem_cons.mp hu with rfl | hu
  · obtain ⟨k, -, -, hk⟩ := h.listed.nodeSlots l hl
    exact Or.inl ⟨k, by rw [hk]⟩
  · obtain ⟨⟨c, hc, hfree, -⟩, -⟩ := (h.free u l.size).mp ⟨l, hl, hu, rfl⟩
    exact Or.inr ⟨c, hc, hfree⟩

theorem member (h : Shows env s blocks epi lists out) (hx : At (firstBlock env) blocks x b)
    (hl : l ∈ lists) (hxl : x ∈ l.members) : b.size = l.size ∧ b.info.allocated = false := by
  obtain ⟨⟨c, hc, hfree, hsize⟩, -⟩ := (h.free x l.size).mp ⟨l, hl, hxl, rfl⟩
  have hb := h.tiled.bounds hx
  have hc' := h.tiled.bounds hc
  obtain ⟨-, rfl⟩ := hx.unique hc (w := x) (by omega) (by omega)
  exact ⟨hsize, hfree⟩

-- A free block is taken out of its list.
theorem unlink (hdoc : Documented env) (h : Shows env s blocks epi lists out)
    (hx : FreeAt env blocks x n) (hout : x ∉ out) :
    ∃ lists', Shows env (s.unlink x) blocks epi lists' (x :: out) ∧
      lists'.map (fun l => (l.node, l.size)) = lists.map (fun l => (l.node, l.size)) ∧
      (∀ m, n < m → lists'.filter (m ≤ ·.size) = lists.filter (m ≤ ·.size)) ∧
      SamePayloads env blocks s (s.unlink x) := by
  obtain ⟨l, hl, hxl, hsize⟩ := (h.free x n).mpr ⟨hx, hout⟩
  obtain ⟨pre, post, rfl⟩ := List.append_of_mem hl
  obtain ⟨first, second, hm⟩ := List.append_of_mem hxl
  obtain ⟨hlisted, hrel⟩ := h.listed.unlink hdoc hm
  have htiled := hrel.tiled hdoc h.tiled fun u hu => h.ring_owner hl hu
  have hsame := hrel.samePayloads hdoc h.tiled fun u hu => h.ring_owner hl hu
  refine ⟨_, ⟨htiled, hlisted, fun y m => ?_, fun a ha => ?_, ?_,
    h.closed⟩, by simp, fun m hm' => ?_, hsame⟩
  · have hon := h.free y m
    have hsplit : y ∈ first ++ x :: second ↔ y = x ∨ y ∈ first ++ second := mem_middle
    rw [on_middle, hm, hsplit] at hon
    rw [on_middle, List.mem_cons, not_or, ← and_assoc, and_right_comm, ← hon]
    have hnot := h.listed.alone hm
    by_cases hyx : y = x
    · subst hyx
      simp only [not_true_eq_false, and_false, iff_false, not_or, not_and]
      refine ⟨fun hin => absurd hin hnot.1, ?_⟩
      rintro ⟨a, ha, hya, -⟩
      exact hnot.2 a ha hya
    · simp [hyx]
  · rcases mem_middle.mp ha with rfl | ha
    · exact h.sizes l hl
    · exact h.sizes a (mem_middle.mpr (Or.inr ha))
  · obtain ⟨a, ha, hsize'⟩ := h.whole
    rcases mem_middle.mp ha with rfl | ha
    · exact ⟨_, mem_middle.mpr (Or.inl rfl), hsize'⟩
    · exact ⟨a, mem_middle.mpr (Or.inr ha), hsize'⟩
  · have hlow : ¬m ≤ l.size := by omega
    simp [hlow]

theorem not_member (h : Shows env s blocks epi lists (x :: out)) (a : SizeList) (ha : a ∈ lists) :
    x ∉ a.members :=
  fun hxa => h.not_on_out List.mem_cons_self a.size ⟨a, ha, hxa, rfl⟩

theorem pushed_owner (h : Shows env s blocks epi (pre ++ l :: post) out)
    (hx : FreeAt env blocks x n) {u : Nat} (hu : u ∈ x :: head l.node :: l.members) :
    (∃ k, u = head (env.slot k)) ∨
      ∃ b, At (firstBlock env) blocks u b ∧ b.info.allocated = false := by
  rcases List.mem_cons.mp hu with rfl | hu
  · obtain ⟨b, hb, hfree, -⟩ := hx
    exact Or.inr ⟨b, hb, hfree⟩
  · exact h.ring_owner (mem_middle.mpr (Or.inl rfl)) hu

-- A free block that was out of the lists is linked to the head of the list of its
-- size.
theorem pushed (hdoc : Documented env) (h : Shows env s blocks epi (pre ++ l :: post) (x :: out))
    (hx : FreeAt env blocks x l.size) (hout : x ∉ out)
    (hlisted : Listed env s' (pre ++ { l with members := x :: l.members } :: post))
    (hrel : Relinked s s' (x :: head l.node :: l.members)) :
    Shows env s' blocks epi (pre ++ { l with members := x :: l.members } :: post) out := by
  have hl : l ∈ pre ++ l :: post := mem_middle.mpr (Or.inl rfl)
  refine ⟨hrel.tiled hdoc h.tiled fun u hu => h.pushed_owner hx hu, hlisted, fun y m => ?_,
    fun a ha => ?_, ?_, h.closed⟩
  · have hon := h.free y m
    rw [on_middle, List.mem_cons, not_or] at hon
    rw [on_middle, List.mem_cons, or_and_right, or_assoc, hon]
    by_cases hyx : y = x
    · subst hyx
      simp only [true_and, not_true_eq_false, and_false, or_false, hout, not_false_eq_true,
        and_true]
      exact ⟨fun hm => hm ▸ hx, fun hm => hx.unique h.tiled hm⟩
    · simp [hyx]
  · rcases mem_middle.mp ha with rfl | ha
    · exact h.sizes l hl
    · exact h.sizes a (mem_middle.mpr (Or.inr ha))
  · obtain ⟨a, ha, hsize'⟩ := h.whole
    rcases mem_middle.mp ha with rfl | ha
    · exact ⟨_, mem_middle.mpr (Or.inl rfl), hsize'⟩
    · exact ⟨a, mem_middle.mpr (Or.inr ha), hsize'⟩

theorem add (hdoc : Documented env) (h : Shows env s blocks epi (pre ++ post) out) (hn : 32 ≤ n) :
    ∃ s' node, sfAddFreeList env s n (firstNode env post) = (some node, s') ∧
      Shows env s' blocks epi (pre ++ ⟨node, n, []⟩ :: post) out ∧ HeapKept env s s' := by
  obtain ⟨back, hback⟩ := firstNode_spec env post
  obtain ⟨s', hs', hkept, hlisted⟩ : ∃ s', sfAddFreeList env s n _ = _ ∧ _ :=
    h.listed.add hdoc hback
  refine ⟨s', _, hs', ⟨hkept.tiled h.tiled, hlisted, fun y m => ?_, fun a ha => ?_, ?_, h.closed⟩,
    hkept⟩
  · rw [on_middle]
    simpa using h.free y m
  · rcases mem_middle.mp ha with rfl | ha
    · exact hn
    · exact h.sizes a ha
  · obtain ⟨a, ha, hsize⟩ := h.whole
    exact ⟨a, mem_middle.mpr (Or.inr ha), hsize⟩

theorem place (h : Shows env s blocks epi lists out) (hn : 0 < n) :
    Sfmm.place env s n = .ok (match lists.find? (n ≤ ·.size) with
      | some a => if a.size = n then .equal a.node else .before a.node
      | none => .atEnd) := by
  rw [Sfmm.place, h.listed.nodeNext_head]
  refine h.listed.findPlace h.pos hn (List.nil_append lists).symm ?_
  rw [h.listed.nodeCount]
  omega

-- The loop that the three insertions share.
theorem insert (hdoc : Documented env) {link : State → Nat → Nat → State}
    (hlink : LinksNew env link) (h : Shows env s blocks epi lists (x :: out))
    (hx : FreeAt env blocks x n) (hout : x ∉ out) (hroom : RoomyLists lists n) (last : Nat) :
    ∃ s' lists', insertSized env s n x last link = .ok s' ∧ Shows env s' blocks epi lists' out ∧
      Inserted n lists lists' ∧ SamePayloads env blocks s s' := by
  obtain ⟨b, hb, hfree, rfl⟩ := hx
  have hbounds := h.tiled.bounds hb
  have hinHeap := h.tiled.inHeap hdoc hb
  have htotal := hb.bounds
  have hplace := h.place (show 0 < b.size by omega)
  obtain ⟨a, ha⟩ : ∃ a, lists.find? (b.size ≤ ·.size) = some a := by
    obtain ⟨a, ha, hsize⟩ := h.whole
    refine Option.isSome_iff_exists.mp (List.find?_isSome.mpr ⟨a, ha, ?_⟩)
    rw [h.tiled.total] at htotal
    simp only [decide_eq_true_eq]
    omega
  have hfound := ha
  rw [ha] at hplace
  rw [List.find?_eq_some_iff_append] at hfound
  obtain ⟨hle, pre, post, rfl, hpre⟩ := hfound
  simp only [decide_eq_true_eq] at hle
  unfold insertSized
  by_cases hsize : a.size = b.size
  · simp only [hplace, hsize, if_true, Lib.ok_bind, Lib.pure_eq_ok]
    have hshort := (h.listed.single_iff hdoc (mem_middle.mpr (Or.inl rfl))).mpr (hroom a ha hsize)
    obtain ⟨hlisted, hrel⟩ := h.listed.linkFrontPrev hdoc hinHeap h.not_member hshort
    refine ⟨_, _, rfl, h.pushed hdoc ⟨b, hb, hfree, hsize.symm⟩ hout hlisted hrel,
      ⟨fun m hm => ?_, ?_⟩,
      hrel.samePayloads hdoc h.tiled fun u hu => h.pushed_owner ⟨b, hb, hfree, rfl⟩ hu⟩
    · have hlow : ¬m ≤ a.size := by omega
      simp [hlow]
    · simp
  · simp only [hplace, hsize, if_false, Lib.ok_bind]
    obtain ⟨s₁, node, hs₁, hadd, hkept⟩ := h.add hdoc hbounds.2.2
    rw [show firstNode env (a :: post) = a.node from rfl] at hs₁
    simp only [hs₁]
    obtain ⟨hlisted, hrel⟩ := hlink s₁ pre ⟨node, b.size, []⟩ (a :: post) x hadd.listed rfl hinHeap
      hadd.not_member
    have hsame := (hkept.samePayloads h.tiled).trans
      (hrel.samePayloads hdoc hadd.tiled fun u hu => hadd.pushed_owner ⟨b, hb, hfree, rfl⟩ hu)
    refine ⟨_, _, rfl, hadd.pushed hdoc ⟨b, hb, hfree, rfl⟩ hout hlisted hrel, ⟨fun m hm => ?_,
      fun hsorted => ?_, fun hsorted => hsorted.sublist ?_⟩, hsame⟩
    · have hlow : ¬m ≤ b.size := by omega
      simp [hlow]
    · simp only [List.map_append, List.map_cons] at hsorted ⊢
      rw [List.pairwise_append, List.pairwise_cons] at hsorted ⊢
      obtain ⟨hpre', ⟨ha', hpost⟩, hcross⟩ := hsorted
      refine ⟨hpre', ⟨fun c hc => ?_, List.pairwise_cons.mpr ⟨ha', hpost⟩⟩, fun c hc d hd => ?_⟩
      · rcases List.mem_cons.mp hc with rfl | hc
        · omega
        · have hac := ha' c hc
          omega
      · rcases List.mem_cons.mp hd with rfl | hd
        · obtain ⟨e, he, rfl⟩ := List.mem_map.mp hc
          have hsmall := hpre e he
          simp only [decide_eq_false_iff_not, Bool.not_eq_eq_eq_not, Bool.not_true] at hsmall
          omega
        · exact hcross c hc d hd
    · simp only [List.map_append, List.map_cons]
      exact (List.sublist_cons_self _ _).append_left _

end Shows

theorem linksNew_linkFront (hdoc : Documented env) : LinksNew env State.linkFront :=
  fun _ _ _ _ _ hlisted _ hx hnew => hlisted.linkFront hdoc hx hnew

theorem linksNew_linkFrontPrev (hdoc : Documented env) : LinksNew env State.linkFrontPrev := by
  intro s pre l post x hlisted hnil hx hnew
  refine hlisted.linkFrontPrev hdoc hx hnew ?_
  rw [hlisted.single_iff hdoc (mem_middle.mpr (Or.inl rfl)), hnil]
  simp

end CSE320.Sfmm
