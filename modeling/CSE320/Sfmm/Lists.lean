import CSE320.Sfmm.Layout

namespace CSE320.Sfmm

open Lib (Ring)

variable (env : Sfutil)

-- The header addresses of a heap of one page.
def InHeap (x : Nat) : Prop :=
  env.memStart + 40 ≤ x ∧ x + 32 ≤ env.memStart + 4088 ∧ x % 16 = 8

-- What can stand in a list of free blocks: a header, or the head inside a node.
def Owner (x : Nat) : Prop := InHeap env x ∨ ∃ k, x = head (env.slot k)

-- The list of sizes and the lists of free blocks.
structure Listed (s : State) (lists : List SizeList) : Prop where
  headSize : s.nodeSize (env.slot 0) = 0
  nodeRing : Ring s.nodeNext s.nodePrev (env.slot 0) (lists.map SizeList.node)
  nodeCount : lists.length = s.nodes
  nodeSlots : ∀ l ∈ lists, ∃ k, 0 < k ∧ k ≤ s.nodes ∧ l.node = env.slot k
  nodeNodup : (lists.map SizeList.node).Nodup
  nodeSizes : ∀ l ∈ lists, s.nodeSize l.node = l.size
  ring : ∀ l ∈ lists, Ring s.linkNext s.linkPrev (head l.node) l.members
  inHeap : ∀ l ∈ lists, ∀ x ∈ l.members, InHeap env x
  nodup : (lists.flatMap SizeList.members).Nodup

-- A word that one of these facts is about.
def LinkWord (s : State) (lists : List SizeList) (w : Nat) : Prop :=
  (∃ k ≤ s.nodes, w = env.slot k ∨ w = env.slot k + 16 ∨ w = env.slot k + 24 ∨
    w = env.slot k + 32 ∨ w = env.slot k + 40) ∨
  ∃ l ∈ lists, ∃ x ∈ l.members, w = x + 8 ∨ w = x + 16

variable {env} {s s' : State} {lists : List SizeList}

theorem Owner.next_ne_prev (hdoc : Documented env) {u v : Nat} (hu : Owner env u)
    (hv : Owner env v) : u + 8 ≠ v + 16 := by
  rcases hu with ⟨hu₁, hu₂, hu₃⟩ | ⟨j, rfl⟩ <;> rcases hv with ⟨hv₁, hv₂, hv₃⟩ | ⟨k, rfl⟩
  · omega
  · have haway := hdoc.slotAway k
    simp only [head]
    omega
  · have haway := hdoc.slotAway j
    simp only [head]
    omega
  · simp only [head]
    by_cases hjk : j = k
    · subst hjk
      omega
    · have hapart := hdoc.slotApart j k hjk
      omega

-- The words of a node that belong to the list of sizes.
theorem Owner.ne_node (hdoc : Documented env) {u w : Nat} (hu : Owner env u) (k : Nat)
    (hw : w = env.slot k ∨ w = env.slot k + 32 ∨ w = env.slot k + 40) : w ≠ u + 8 ∧ w ≠ u + 16 := by
  rcases hu with ⟨hu₁, hu₂, hu₃⟩ | ⟨j, rfl⟩
  · have haway := hdoc.slotAway k
    omega
  · simp only [head]
    by_cases hjk : j = k
    · subst hjk
      omega
    · have hapart := hdoc.slotApart j k hjk
      omega

theorem Owner.words_ne (hdoc : Documented env) {u v : Nat} (hu : Owner env u) (hv : Owner env v)
    (hne : u ≠ v) : (u + 8 ≠ v + 8 ∧ u + 8 ≠ v + 16) ∧ (u + 16 ≠ v + 8 ∧ u + 16 ≠ v + 16) := by
  have huv := hu.next_ne_prev hdoc hv
  have hvu := hv.next_ne_prev hdoc hu
  omega

theorem slot_injective (hdoc : Documented env) {j k : Nat}
    (h : env.slot j = env.slot k) : j = k := by
  by_contra hne
  have hapart := hdoc.slotApart j k hne
  omega

theorem mem_middle {α : Type} {a x : α} {pre post : List α} :
    a ∈ pre ++ x :: post ↔ a = x ∨ a ∈ pre ++ post := by
  rw [List.mem_append, List.mem_cons, List.mem_append]
  tauto

namespace Listed

theorem headOwner (h : Listed env s lists) {l : SizeList} (hl : l ∈ lists) :
    Owner env (head l.node) := by
  obtain ⟨k, -, -, hk⟩ := h.nodeSlots l hl
  exact Or.inr ⟨k, by rw [hk]⟩

theorem owner (h : Listed env s lists) {l : SizeList} (hl : l ∈ lists) {u : Nat}
    (hu : u ∈ head l.node :: l.members) : Owner env u := by
  rcases List.mem_cons.mp hu with rfl | hu
  · exact h.headOwner hl
  · exact Or.inl (h.inHeap l hl u hu)

theorem congr (h : Listed env s lists) (hnodes : s'.nodes = s.nodes)
    (hsame : ∀ w, LinkWord env s lists w → s'.mem w = s.mem w) : Listed env s' lists := by
  have hnode (k : Nat) (hk : k ≤ s.nodes) (w : Nat) (hw : w = env.slot k ∨ w = env.slot k + 16 ∨
      w = env.slot k + 24 ∨ w = env.slot k + 32 ∨ w = env.slot k + 40) : s'.mem w = s.mem w :=
    hsame w (Or.inl ⟨k, hk, hw⟩)
  refine ⟨?_, h.nodeRing.congr fun n hn => ?_, h.nodeCount.trans hnodes.symm, fun l hl => ?_,
    h.nodeNodup, fun l hl => ?_, fun l hl => (h.ring l hl).congr fun u hu => ?_, h.inHeap, h.nodup⟩
  · rw [State.nodeSize, hnode 0 (Nat.zero_le _) _ (Or.inl rfl)]
    exact h.headSize
  · obtain ⟨k, hk, rfl⟩ : ∃ k ≤ s.nodes, n = env.slot k := by
      rcases List.mem_cons.mp hn with rfl | hn
      · exact ⟨0, Nat.zero_le _, rfl⟩
      · obtain ⟨l, hl, rfl⟩ := List.mem_map.mp hn
        obtain ⟨k, -, hk, he⟩ := h.nodeSlots l hl
        exact ⟨k, hk, he⟩
    exact ⟨hnode k hk _ (by simp), hnode k hk _ (by simp)⟩
  · rw [hnodes]
    exact h.nodeSlots l hl
  · obtain ⟨k, -, hk, he⟩ := h.nodeSlots l hl
    rw [State.nodeSize, hnode k hk _ (Or.inl he)]
    exact h.nodeSizes l hl
  · rcases List.mem_cons.mp hu with rfl | hu
    · obtain ⟨k, -, hk, he⟩ := h.nodeSlots l hl
      rw [he]
      exact ⟨hnode k hk _ (by simp [head]), hnode k hk _ (by simp [head])⟩
    · exact ⟨hsame _ (Or.inr ⟨l, hl, u, hu, Or.inl rfl⟩),
        hsame _ (Or.inr ⟨l, hl, u, hu, Or.inr rfl⟩)⟩

-- One list of free blocks is rewritten by writes to the links of its own blocks,
-- old and new.
theorem relink {pre post : List SizeList} {l : SizeList} {members : List Nat}
    (hdoc : Documented env) (h : Listed env s (pre ++ l :: post)) (hnodes : s'.nodes = s.nodes)
    (hheap : ∀ x ∈ members, InHeap env x)
    (hnodup : ((pre ++ { l with members } :: post).flatMap SizeList.members).Nodup)
    (hring : Ring s'.linkNext s'.linkPrev (head l.node) members)
    (hsame : ∀ w, (∀ u ∈ head l.node :: (l.members ++ members), w ≠ u + 8 ∧ w ≠ u + 16) →
      s'.mem w = s.mem w) : Listed env s' (pre ++ { l with members } :: post) := by
  have hl : l ∈ pre ++ l :: post := by simp
  have howner (u : Nat) (hu : u ∈ head l.node :: (l.members ++ members)) : Owner env u := by
    rw [List.mem_cons, List.mem_append] at hu
    rcases hu with rfl | hu | hu
    · exact h.headOwner hl
    · exact Or.inl (h.inHeap l hl u hu)
    · exact Or.inl (hheap u hu)
  have hnode (k : Nat) (w : Nat) (hw : w = env.slot k ∨ w = env.slot k + 32 ∨ w = env.slot k + 40) :
      s'.mem w = s.mem w := hsame w fun u hu => (howner u hu).ne_node hdoc k hw
  have hmap : (pre ++ { l with members } :: post).map SizeList.node =
      (pre ++ l :: post).map SizeList.node := by simp
  -- the other lists have other heads and other members
  have hother (l' : SizeList) (hl' : l' ∈ pre ++ post) (v : Nat)
      (hv : v ∈ head l'.node :: l'.members)
      (u : Nat) (hu : u ∈ head l.node :: (l.members ++ members)) : v ≠ u := by
    have hmem : l' ∈ pre ++ l :: post := mem_middle.mpr (Or.inr hl')
    have hnode' : l'.node ≠ l.node := by
      have hn := h.nodeNodup
      rw [List.map_append, List.map_cons] at hn
      have hn' := List.nodup_middle.mp hn
      intro he
      apply (List.nodup_cons.mp hn').1
      rw [← List.map_append, ← he]
      exact List.mem_map_of_mem hl'
    have hdisjoint (members' : List Nat)
        (hd : ((pre ++ { l with members := members' } :: post).flatMap SizeList.members).Nodup)
        (hv' : v ∈ l'.members) : v ∉ members' := by
      intro hin
      rw [List.flatMap_append, List.flatMap_cons, List.nodup_append] at hd
      obtain ⟨-, hd₂, hd₃⟩ := hd
      rw [List.mem_append] at hl'
      rcases hl' with hl' | hl'
      · exact hd₃ v (List.mem_flatMap.mpr ⟨l', hl', hv'⟩) v (List.mem_append_left _ hin) rfl
      · exact (List.nodup_append.mp hd₂).2.2 v hin v (List.mem_flatMap.mpr ⟨l', hl', hv'⟩) rfl
    have hheadne (a : SizeList) (ha : a ∈ pre ++ l :: post) (x : Nat) (hx : InHeap env x) :
        head a.node ≠ x := by
      obtain ⟨k, -, -, hk⟩ := h.nodeSlots a ha
      have haway := hdoc.slotAway k
      obtain ⟨hx₁, hx₂, hx₃⟩ := hx
      simp only [head]
      omega
    rw [List.mem_cons] at hv
    rw [List.mem_cons, List.mem_append] at hu
    rcases hv with rfl | hv <;> rcases hu with rfl | hu | hu
    · intro he
      apply hnode'
      simp only [head] at he
      omega
    · exact hheadne l' hmem u (h.inHeap l hl u hu)
    · exact hheadne l' hmem u (hheap u hu)
    · exact (hheadne l hl v (h.inHeap l' hmem v hv)).symm
    · rintro rfl
      exact hdisjoint l.members h.nodup hv hu
    · rintro rfl
      exact hdisjoint members hnodup hv hu
  refine ⟨?_, ?_, ?_, ?_, ?_, ?_, ?_, ?_, hnodup⟩
  · rw [State.nodeSize, hnode 0 _ (Or.inl rfl)]
    exact h.headSize
  · rw [hmap]
    refine h.nodeRing.congr fun n hn => ?_
    obtain ⟨k, rfl⟩ : ∃ k, n = env.slot k := by
      rcases List.mem_cons.mp hn with rfl | hn
      · exact ⟨0, rfl⟩
      · obtain ⟨a, ha, rfl⟩ := List.mem_map.mp hn
        obtain ⟨k, -, -, he⟩ := h.nodeSlots a ha
        exact ⟨k, he⟩
    exact ⟨hnode k _ (by simp), hnode k _ (by simp)⟩
  · rw [hnodes, ← h.nodeCount]
    simp
  · intro a ha
    rw [hnodes]
    rcases mem_middle.mp ha with rfl | ha
    · exact h.nodeSlots l hl
    · exact h.nodeSlots a (mem_middle.mpr (Or.inr ha))
  · rw [hmap]
    exact h.nodeNodup
  · intro a ha
    obtain ⟨a', ha', hnode', hsize⟩ : ∃ a' ∈ pre ++ l :: post, a.node = a'.node ∧
        a.size = a'.size := by
      rcases mem_middle.mp ha with rfl | ha
      · exact ⟨l, hl, rfl, rfl⟩
      · exact ⟨a, mem_middle.mpr (Or.inr ha), rfl, rfl⟩
    obtain ⟨k, -, -, hk⟩ := h.nodeSlots a' ha'
    rw [hnode', hsize, State.nodeSize, hnode k _ (Or.inl hk)]
    exact h.nodeSizes a' ha'
  · intro a ha
    rcases mem_middle.mp ha with rfl | ha
    · exact hring
    · have hmem : a ∈ pre ++ l :: post := mem_middle.mpr (Or.inr ha)
      refine (h.ring a hmem).congr fun v hv => ?_
      have hwords (u : Nat) (hu : u ∈ head l.node :: (l.members ++ members)) :=
        (h.owner hmem hv).words_ne hdoc (howner u hu) (hother a ha v hv u hu)
      exact ⟨hsame _ fun u hu => (hwords u hu).1, hsame _ fun u hu => (hwords u hu).2⟩
  · intro a ha
    rcases mem_middle.mp ha with rfl | ha
    · exact hheap
    · exact h.inHeap a (mem_middle.mpr (Or.inr ha))

end Listed

-- Only links of the given owners have changed.
structure Relinked (s s' : State) (owners : List Nat) : Prop where
  memEnd : s'.memEnd = s.memEnd
  nodes : s'.nodes = s.nodes
  same : ∀ w, (∀ u ∈ owners, w ≠ u + 8 ∧ w ≠ u + 16) → s'.mem w = s.mem w

theorem Relinked.mono {us vs : List Nat} (h : Relinked s s' us) (hsub : ∀ u ∈ us, u ∈ vs) :
    Relinked s s' vs := ⟨h.memEnd, h.nodes, fun w hw => h.same w fun u hu => hw u (hsub u hu)⟩

theorem Relinked.tiled {blocks : List Blk} {epi : Info} {us : List Nat} (hdoc : Documented env)
    (h : Relinked s s' us) (ht : Tiled env s blocks epi)
    (hus : ∀ u ∈ us, (∃ k, u = head (env.slot k)) ∨
      ∃ b, At (firstBlock env) blocks u b ∧ b.info.allocated = false) : Tiled env s'
        blocks epi := by
  refine ht.congr h.memEnd fun w hw => h.same w fun u hu => ?_
  have hlink (i : Nat) (hi : i = 8 ∨ i = 16) : w ≠ u + i := by
    rintro rfl
    rcases hus u hu with ⟨k, rfl⟩ | ⟨b, hb, hfree⟩
    · have haway := hdoc.slotAway k
      refine ht.not_tagged_of_away ?_ hw
      simp only [head]
      omega
    · have hbounds := ht.bounds hb
      exact ht.not_tagged hb (by omega) (fun _ => by omega) hw
  exact ⟨hlink 8 (Or.inl rfl), hlink 16 (Or.inr rfl)⟩

theorem unlink_mem {x p c : Nat} (hp : s.linkPrev x = p) (hc : s.linkNext x = c) (hpx : p ≠ x)
    (hpx' : p + 8 ≠ x + 16) (w : Nat) :
    (s.unlink x).mem w = if w = c + 16 then p else if w = p + 8 then c else s.mem w := by
  have hpx'' : x + 8 ≠ p + 8 := by omega
  simp only [State.linkPrev, State.linkNext] at hp hc
  simp only [State.unlink, State.setLinkNext, State.setLinkPrev, State.write, State.linkNext,
    State.linkPrev, hp, hc, if_neg hpx'', if_neg hpx'.symm]

theorem linkFront_mem {h x n : Nat} (hn : s.linkNext h = n) (hne : h ≠ x) (hne' : h + 8 ≠ x + 16)
    (w : Nat) : (s.linkFront h x).mem w =
      if w = h + 8 then x else if w = n + 16 then x else if w = x + 16 then h
      else if w = x + 8 then n else s.mem w := by
  have hne'' : h + 8 ≠ x + 8 := by omega
  simp only [State.linkNext] at hn
  simp only [State.linkFront, State.setLinkNext, State.setLinkPrev, State.write, State.linkNext,
    hn, if_neg hne', if_neg hne'']

theorem linkFrontPrev_mem {h x n : Nat} (hn : s.linkNext h = n) (hp : s.linkPrev h = n)
    (hne : h ≠ x) (hne' : h + 8 ≠ x + 16) (w : Nat) : (s.linkFrontPrev h x).mem w =
      if w = h + 8 then x else if w = n + 16 then x else if w = x + 8 then n
      else if w = x + 16 then h else s.mem w := by
  have hnext : h + 8 ≠ x + 8 := by omega
  have hprev : h + 16 ≠ x + 16 := by omega
  simp only [State.linkNext, State.linkPrev] at hn hp
  simp only [State.linkFrontPrev, State.setLinkNext, State.setLinkPrev, State.write, State.linkNext,
    State.linkPrev, hn, hp, if_neg hne', if_neg hnext, if_neg hprev]

namespace Listed

variable {pre post : List SizeList} {l : SizeList} {x : Nat}

theorem head_ne (hdoc : Documented env) (h : Listed env s lists) (hl : l ∈ lists)
    (hx : InHeap env x) : head l.node ≠ x := by
  obtain ⟨k, -, -, hk⟩ := h.nodeSlots l hl
  have haway := hdoc.slotAway k
  obtain ⟨hx₁, hx₂, hx₃⟩ := hx
  simp only [head]
  omega

theorem members_nodup (h : Listed env s lists) (hl : l ∈ lists) : l.members.Nodup :=
  (List.nodup_flatMap.mp h.nodup).1 l hl

theorem ring_nodup (hdoc : Documented env) (h : Listed env s lists) (hl : l ∈ lists) :
    (head l.node :: l.members).Nodup :=
  List.nodup_cons.mpr ⟨fun hmem => h.head_ne hdoc hl (h.inHeap l hl _ hmem) rfl, h.members_nodup hl⟩

theorem unlink {first second : List Nat} (hdoc : Documented env)
    (h : Listed env s (pre ++ l :: post)) (hm : l.members = first ++ x :: second) :
    Listed env (s.unlink x) (pre ++ { l with members := first ++ second } :: post) ∧
      Relinked s (s.unlink x) (head l.node :: l.members) := by
  have hl : l ∈ pre ++ l :: post := mem_middle.mpr (Or.inl rfl)
  have hr := h.ring l hl
  have hnd := h.ring_nodup hdoc hl
  rw [hm] at hr hnd
  obtain ⟨front, p, hp⟩ := Lib.cut_before (head l.node) first
  obtain ⟨c, back, hc⟩ := Lib.cut_behind (head l.node) second
  obtain ⟨-, ⟨hpx, hxp⟩, ⟨hxc, hcx⟩, -⟩ := hr.around hp hc
  have hpmem : p ∈ head l.node :: first := by
    rw [hp]
    simp
  have hcmem : c ∈ head l.node :: second := by
    have hc' : c ∈ second ++ [head l.node] := by
      rw [hc]
      simp
    simpa [or_comm] using hc'
  have hring : ∀ u ∈ head l.node :: (first ++ x :: second), Owner env u := by
    rw [← hm]
    exact fun u hu => h.owner hl hu
  have hpring : p ∈ head l.node :: (first ++ x :: second) := by
    simp only [List.mem_cons, List.mem_append] at hpmem ⊢
    tauto
  have hcring : c ∈ head l.node :: (first ++ x :: second) := by
    simp only [List.mem_cons, List.mem_append] at hcmem ⊢
    tauto
  have hxring : x ∈ head l.node :: (first ++ x :: second) := by simp
  have hpne : p ≠ x := by
    rintro rfl
    rw [← List.cons_append, List.nodup_append] at hnd
    exact hnd.2.2 p hpmem p List.mem_cons_self rfl
  have hmem := unlink_mem hxp hxc hpne ((hring p hpring).next_ne_prev hdoc (hring x hxring))
  have hsub (u : Nat) (hu : u ∈ head l.node :: (first ++ second)) :
      u ∈ head l.node :: (first ++ x :: second) := by
    simp only [List.mem_cons, List.mem_append] at hu ⊢
    tauto
  have hsame (w : Nat) (hw : ∀ u ∈ head l.node :: l.members, w ≠ u + 8 ∧ w ≠ u + 16) :
      (s.unlink x).mem w = s.mem w := by
    rw [hm] at hw
    rw [hmem, if_neg (hw c hcring).2, if_neg (hw p hpring).1]
  refine ⟨relink hdoc h rfl (fun y hy => ?_) ?_ ?_ (fun w hw => ?_), ⟨rfl, rfl, hsame⟩⟩
  · refine h.inHeap l hl y ?_
    rw [hm]
    simp only [List.mem_append, List.mem_cons] at hy ⊢
    tauto
  · refine h.nodup.sublist ?_
    simp only [List.flatMap_append, List.flatMap_cons, hm]
    refine (List.Sublist.refl _).append ((List.Sublist.append ?_ (List.Sublist.refl _)))
    exact (List.sublist_cons_self x second).append_left first
  · refine hr.remove hnd hp hc (fun u hu hne => ?_) (fun u hu hne => ?_) ⟨?_, ?_⟩
    · have hcu := (hring u (hsub u hu)).next_ne_prev hdoc (hring c hcring)
      rw [State.linkNext, hmem, if_neg hcu, if_neg (by omega)]
      rfl
    · have hpu := (hring p hpring).next_ne_prev hdoc (hring u (hsub u hu))
      rw [State.linkPrev, hmem, if_neg (by omega), if_neg hpu.symm]
      rfl
    · have hpc := (hring p hpring).next_ne_prev hdoc (hring c hcring)
      rw [State.linkNext, hmem, if_neg hpc, if_pos rfl]
    · rw [State.linkPrev, hmem, if_pos rfl]
  · refine hsame w fun u hu => hw u ?_
    simp only [List.mem_cons, List.mem_append] at hu ⊢
    tauto

-- The neighbours of a block in its ring.
theorem neighbours (h : Listed env s lists) (hl : l ∈ lists) (hx : x ∈ l.members) :
    s.linkNext x ∈ head l.node :: l.members ∧ s.linkPrev x ∈ head l.node :: l.members := by
  obtain ⟨first, second, hm⟩ := List.append_of_mem hx
  have hr := h.ring l hl
  rw [hm] at hr ⊢
  obtain ⟨front, p, hp⟩ := Lib.cut_before (head l.node) first
  obtain ⟨c, back, hc⟩ := Lib.cut_behind (head l.node) second
  obtain ⟨-, ⟨-, hxp⟩, ⟨hxc, -⟩, -⟩ := hr.around hp hc
  have hpmem : p ∈ head l.node :: first := by
    rw [hp]
    simp
  have hcmem : c ∈ second ++ [head l.node] := by
    rw [hc]
    simp
  rw [hxp, hxc]
  simp only [List.mem_cons, List.mem_append, List.not_mem_nil, or_false] at hpmem hcmem ⊢
  tauto

theorem link_words (h : Listed env s lists) (hl : l ∈ lists) {u : Nat}
    (hu : u ∈ head l.node :: l.members) : LinkWord env s lists (u + 8) ∧ LinkWord env s lists
    (u + 16) := by
  rcases List.mem_cons.mp hu with rfl | hu
  · obtain ⟨k, -, hk, he⟩ := h.nodeSlots l hl
    exact ⟨Or.inl ⟨k, hk, by simp [he, head]⟩, Or.inl ⟨k, hk, by simp [he, head]⟩⟩
  · exact ⟨Or.inr ⟨l, hl, u, hu, Or.inl rfl⟩, Or.inr ⟨l, hl, u, hu, Or.inr rfl⟩⟩

-- A write to any other word commutes with the removal of a block.
theorem setInfo_unlink {a : Nat} (hdoc : Documented env) (h : Listed env s lists) (hl : l ∈ lists)
    (hx : x ∈ l.members) (ha : ¬LinkWord env s lists a) (f : Info → Info) :
    (s.setInfo a f).unlink x = (s.unlink x).setInfo a f := by
  obtain ⟨hnext, hprev⟩ := h.neighbours hl hx
  have hxmem : x ∈ head l.node :: l.members := List.mem_cons_of_mem _ hx
  have hne (w : Nat) (hw : LinkWord env s lists w) : w ≠ a := fun he => ha (he ▸ hw)
  have hpx : s.linkPrev x ≠ x := by
    obtain ⟨first, second, hm⟩ := List.append_of_mem hx
    have hr := h.ring l hl
    have hnd := h.ring_nodup hdoc hl
    rw [hm] at hr hnd
    obtain ⟨front, p, hp⟩ := Lib.cut_before (head l.node) first
    obtain ⟨c, back, hc⟩ := Lib.cut_behind (head l.node) second
    rw [(hr.around hp hc).2.1.2]
    rintro rfl
    have hpmem : p ∈ head l.node :: first := by
      rw [hp]
      simp
    rw [← List.cons_append, List.nodup_append] at hnd
    exact hnd.2.2 p hpmem p List.mem_cons_self rfl
  have hpx' := (h.owner hl hprev).next_ne_prev hdoc (h.owner hl hxmem)
  have hnext' : (s.setInfo a f).linkNext x = s.linkNext x :=
    s.mem_setInfo_ne f (hne _ (h.link_words hl hxmem).1)
  have hprev' : (s.setInfo a f).linkPrev x = s.linkPrev x :=
    s.mem_setInfo_ne f (hne _ (h.link_words hl hxmem).2)
  have hc := hne _ (h.link_words hl hnext).2
  have hp := hne _ (h.link_words hl hprev).1
  have hinfo : (s.unlink x).info a = s.info a := by
    rw [State.info, unlink_mem rfl rfl hpx hpx', if_neg hc.symm, if_neg hp.symm]
    rfl
  have hmem : ((s.setInfo a f).unlink x).mem = ((s.unlink x).setInfo a f).mem := by
    funext w
    rw [unlink_mem hprev' hnext' hpx hpx']
    by_cases hwa : w = a
    · subst hwa
      rw [if_neg hc.symm, if_neg hp.symm]
      simp [State.setInfo, State.write, hinfo]
    · rw [State.mem_setInfo_ne _ _ hwa, State.mem_setInfo_ne _ _ hwa, unlink_mem rfl rfl hpx hpx']
  have hother : (s.setInfo a f).unlink x = { (s.unlink x).setInfo a f with
      mem := ((s.setInfo a f).unlink x).mem } := rfl
  rw [hother, hmem]

-- A block that is in no list is put behind the head of one.
theorem pushed {n : Nat} (hdoc : Documented env) (h : Listed env s (pre ++ l :: post))
    (hx : InHeap env x) (hnew : ∀ a ∈ pre ++ l :: post, x ∉ a.members)
    (hn : s.linkNext (head l.node) = n) (hend : s'.memEnd = s.memEnd) (hnodes : s'.nodes = s.nodes)
    (hhx : Lib.Linked s'.linkNext s'.linkPrev (head l.node) x)
    (hxn : Lib.Linked s'.linkNext s'.linkPrev x n)
    (hsame : ∀ w, w ≠ head l.node + 8 → w ≠ n + 16 → w ≠ x + 8 → w ≠ x + 16 → s'.mem w = s.mem w) :
    Listed env s' (pre ++ { l with members := x :: l.members } :: post) ∧
      Relinked s s' (x :: head l.node :: l.members) := by
  have hl : l ∈ pre ++ l :: post := mem_middle.mpr (Or.inl rfl)
  have hr := h.ring l hl
  have hnd := h.ring_nodup hdoc hl
  obtain ⟨c, back, hc⟩ := Lib.cut_behind (head l.node) l.members
  obtain rfl : n = c := hn.symm.trans (hr.next_head hc)
  have hnring : n ∈ head l.node :: l.members := by
    have hn' : n ∈ l.members ++ [head l.node] := by
      rw [hc]
      simp
    simpa [or_comm] using hn'
  have hxowner : Owner env x := Or.inl hx
  have hxne (u : Nat) (hu : u ∈ head l.node :: l.members) : u ≠ x := by
    rintro rfl
    rcases List.mem_cons.mp hu with he | hu
    · exact h.head_ne hdoc hl hx he.symm
    · exact hnew l hl hu
  have hrelinked : Relinked s s' (x :: head l.node :: l.members) := by
    refine ⟨hend, hnodes, fun w hw => ?_⟩
    have hwx := hw x List.mem_cons_self
    exact hsame w (hw _ (by simp)).1 (hw n (List.mem_cons_of_mem _ hnring)).2 hwx.1 hwx.2
  refine ⟨relink hdoc h hnodes (fun y hy => ?_) ?_ ?_ (fun w hw => ?_), hrelinked⟩
  · rcases List.mem_cons.mp hy with rfl | hy
    · exact hx
    · exact h.inHeap l hl y hy
  · have hperm : (pre ++ { l with members := x :: l.members } :: post).flatMap
      SizeList.members |>.Perm
        (x :: (pre ++ l :: post).flatMap SizeList.members) := by
      simp only [List.flatMap_append, List.flatMap_cons, List.cons_append]
      exact List.perm_middle
    rw [hperm.nodup_iff, List.nodup_cons]
    refine ⟨fun hmem => ?_, h.nodup⟩
    obtain ⟨a, ha, hxa⟩ := List.mem_flatMap.mp hmem
    exact hnew a ha hxa
  · have hcut : Ring s.linkNext s.linkPrev (head l.node) ([] ++ l.members) := hr
    refine hcut.insert hnd (show [head l.node] = [] ++ [head l.node] from rfl) hc
      (fun u hu hne => ?_)
      (fun u hu hne => ?_) hhx hxn
    · have howner := h.owner hl hu
      have hwords := howner.words_ne hdoc hxowner (hxne u hu)
      have hun := howner.next_ne_prev hdoc (h.owner hl hnring)
      exact hsame _ (by omega) hun hwords.1.1 hwords.1.2
    · have howner := h.owner hl hu
      have hwords := howner.words_ne hdoc hxowner (hxne u hu)
      have hhu := (h.headOwner hl).next_ne_prev hdoc howner
      exact hsame _ hhu.symm (by omega) hwords.2.1 hwords.2.2
  · refine hrelinked.same w fun u hu => hw u ?_
    simp only [List.mem_cons, List.mem_append] at hu ⊢
    tauto

theorem next_head (hdoc : Documented env) (h : Listed env s lists) (hl : l ∈ lists)
    (hx : InHeap env x) (hnew : x ∉ l.members) :
    Owner env (s.linkNext (head l.node)) ∧ s.linkNext (head l.node) ≠ x := by
  obtain ⟨c, back, hc⟩ := Lib.cut_behind (head l.node) l.members
  rw [(h.ring l hl).next_head hc]
  have hmem : c ∈ head l.node :: l.members := by
    have hc' : c ∈ l.members ++ [head l.node] := by
      rw [hc]
      simp
    simpa [or_comm] using hc'
  refine ⟨h.owner hl hmem, ?_⟩
  rintro rfl
  rcases List.mem_cons.mp hmem with he | hmem
  · exact h.head_ne hdoc hl hx he.symm
  · exact hnew hmem

theorem linkFront (hdoc : Documented env) (h : Listed env s (pre ++ l :: post))
    (hx : InHeap env x) (hnew : ∀ a ∈ pre ++ l :: post, x ∉ a.members) :
    Listed env (s.linkFront (head l.node) x) (pre ++ { l with members := x :: l.members } :: post) ∧
      Relinked s (s.linkFront (head l.node) x) (x :: head l.node :: l.members) := by
  have hl : l ∈ pre ++ l :: post := mem_middle.mpr (Or.inl rfl)
  have hxowner : Owner env x := Or.inl hx
  have hne := h.head_ne hdoc hl hx
  have hhx := (h.headOwner hl).next_ne_prev hdoc hxowner
  have hmem := linkFront_mem (s := s) rfl hne hhx
  obtain ⟨hn, hnx⟩ := h.next_head hdoc hl hx (hnew l hl)
  have hxn := hxowner.next_ne_prev hdoc hn
  refine pushed hdoc h hx hnew rfl rfl rfl ⟨?_, ?_⟩ ⟨?_, ?_⟩ fun w h₁ h₂ h₃ h₄ => ?_
  · simp [State.linkNext, hmem]
  · rw [State.linkPrev, hmem, if_neg hhx.symm, if_neg (by omega), if_pos rfl]
  · rw [State.linkNext, hmem, if_neg (by omega), if_neg hxn, if_neg (by omega), if_pos rfl]
  · rw [State.linkPrev, hmem, if_neg, if_pos rfl]
    exact fun he => (h.headOwner hl).next_ne_prev hdoc hn he.symm
  · rw [hmem, if_neg h₁, if_neg h₂, if_neg h₄, if_neg h₃]

-- The other form does the same while the list holds at most one block.
theorem linkFrontPrev (hdoc : Documented env) (h : Listed env s (pre ++ l :: post))
    (hx : InHeap env x) (hnew : ∀ a ∈ pre ++ l :: post, x ∉ a.members)
    (hshort : s.linkNext (head l.node) = s.linkPrev (head l.node)) :
    Listed env (s.linkFrontPrev (head l.node) x)
      (pre ++ { l with members := x :: l.members } :: post) ∧
      Relinked s (s.linkFrontPrev (head l.node) x) (x :: head l.node :: l.members) := by
  have hl : l ∈ pre ++ l :: post := mem_middle.mpr (Or.inl rfl)
  have hxowner : Owner env x := Or.inl hx
  have hne := h.head_ne hdoc hl hx
  have hhx := (h.headOwner hl).next_ne_prev hdoc hxowner
  have hmem := linkFrontPrev_mem (s := s) rfl hshort.symm hne hhx
  obtain ⟨hn, hnx⟩ := h.next_head hdoc hl hx (hnew l hl)
  have hxn := hxowner.next_ne_prev hdoc hn
  refine pushed hdoc h hx hnew rfl rfl rfl ⟨?_, ?_⟩ ⟨?_, ?_⟩ fun w h₁ h₂ h₃ h₄ => ?_
  · simp [State.linkNext, hmem]
  · rw [State.linkPrev, hmem, if_neg hhx.symm, if_neg (by omega), if_neg (by omega), if_pos rfl]
  · rw [State.linkNext, hmem, if_neg (by omega), if_neg hxn, if_pos rfl]
  · rw [State.linkPrev, hmem, if_neg, if_pos rfl]
    exact fun he => (h.headOwner hl).next_ne_prev hdoc hn he.symm
  · rw [hmem, if_neg h₁, if_neg h₂, if_neg h₃, if_neg h₄]

end Listed

theorem slot_add_ne (hdoc : Documented env) {j k a b : Nat} (ha : a < 48) (hb : b < 48)
    (hne : j ≠ k ∨ a ≠ b) : env.slot j + a ≠ env.slot k + b := by
  by_cases hjk : j = k
  · subst hjk
    omega
  · have hapart := hdoc.slotApart j k hjk
    omega

-- The node that sf_add_free_list puts in front of another one.
theorem sfAddFreeList_mem (hdoc : Documented env) (size : Nat) {j k : Nat}
    (hprev : s.nodePrev (env.slot k) = env.slot j) (hk : k ≤ s.nodes) :
    ∃ s', sfAddFreeList env s size (env.slot k) = (some (env.slot (s.nodes + 1)), s') ∧
      s'.memEnd = s.memEnd ∧ s'.nodes = s.nodes + 1 ∧ ∀ w, s'.mem w =
        if w = env.slot k + 40 then env.slot (s.nodes + 1)
        else if w = env.slot j + 32 then env.slot (s.nodes + 1)
        else if w = env.slot (s.nodes + 1) + 40 then env.slot j
        else if w = env.slot (s.nodes + 1) + 32 then env.slot k
        else if w = env.slot (s.nodes + 1) + 24 then env.slot (s.nodes + 1) + 8
        else if w = env.slot (s.nodes + 1) + 16 then env.slot (s.nodes + 1) + 8
        else if w = env.slot (s.nodes + 1) then size else s.mem w := by
  have hne (a : Nat) (ha : a < 48) : env.slot k + 40 ≠ env.slot (s.nodes + 1) + a :=
    slot_add_ne hdoc (by omega) ha (Or.inl (by omega))
  have hne' : env.slot k + 40 ≠ env.slot (s.nodes + 1) := hne 0 (by omega)
  refine ⟨(sfAddFreeList env s size (env.slot k)).2, ?_, ?_, ?_, fun w => ?_⟩ <;>
    simp only [sfAddFreeList, hdoc.adds, if_true]
  · rfl
  · rfl
  · simp only [State.nodePrev] at hprev
    simp only [State.setLinkNext, State.setLinkPrev, State.write, State.nodePrev, head,
      Nat.add_assoc, Nat.reduceAdd, if_neg (hne 24 (by omega)), if_neg (hne 16 (by omega)),
      if_neg hne', hprev]

-- The words of the heap are not touched.
def HeapKept (env : Sfutil) (s s' : State) : Prop :=
  s'.memEnd = s.memEnd ∧
    ∀ w, env.memStart ≤ w → w < env.memStart + 4096 → s'.mem w = s.mem w

theorem HeapKept.tiled {blocks : List Blk} {epi : Info} (h : HeapKept env s s')
    (ht : Tiled env s blocks epi) : Tiled env s' blocks epi := by
  refine ht.congr h.1 fun w hw => ?_
  by_contra hne
  refine ht.not_tagged_of_away ?_ hw
  by_contra haway
  exact hne (h.2 w (by omega) (by omega))

theorem Listed.add {pre post : List SizeList} {size next : Nat} {back : List Nat}
    (hdoc : Documented env) (h : Listed env s (pre ++ post))
    (hnext : post.map SizeList.node ++ [env.slot 0] = next :: back) :
    ∃ s', sfAddFreeList env s size next = (some (env.slot (s.nodes + 1)), s') ∧
      HeapKept env s s' ∧
      Listed env s' (pre ++ { node := env.slot (s.nodes + 1), size, members := [] } :: post) := by
  have hring := h.nodeRing
  rw [List.map_append] at hring
  have hslots (n : Nat) (hn : n ∈ env.slot 0 :: (pre.map SizeList.node ++ post.map SizeList.node)) :
      ∃ k ≤ s.nodes, n = env.slot k := by
    rw [← List.map_append] at hn
    rcases List.mem_cons.mp hn with rfl | hn
    · exact ⟨0, Nat.zero_le _, rfl⟩
    · obtain ⟨l, hl, rfl⟩ := List.mem_map.mp hn
      obtain ⟨k, -, hk, he⟩ := h.nodeSlots l hl
      exact ⟨k, hk, he⟩
  obtain ⟨front, prev, hprev⟩ := Lib.cut_before (env.slot 0) (pre.map SizeList.node)
  obtain ⟨-, ⟨hpn, hnp⟩, -⟩ := hring.cut hprev hnext
  obtain ⟨k, hk, rfl⟩ := hslots next (by
    have hmem : next ∈ post.map SizeList.node ++ [env.slot 0] := by
      rw [hnext]
      simp
    simp only [List.mem_append, List.mem_cons, List.not_mem_nil, or_false] at hmem ⊢
    tauto)
  obtain ⟨j, hj, rfl⟩ := hslots prev (by
    have hmem : prev ∈ env.slot 0 :: pre.map SizeList.node := by
      rw [hprev]
      simp
    simp only [List.mem_append, List.mem_cons] at hmem ⊢
    tauto)
  obtain ⟨s', hs', hend, hnodes, hmem⟩ := sfAddFreeList_mem hdoc size hnp hk
  have hheap (w : Nat) (hw : env.memStart ≤ w) (hw' : w < env.memStart + 4096) :
      s'.mem w = s.mem w := by
    have h₁ := hdoc.slotAway k
    have h₂ := hdoc.slotAway j
    have h₃ := hdoc.slotAway (s.nodes + 1)
    rw [hmem]
    iterate 7 rw [if_neg (by omega)]
  -- the old nodes keep their words, apart from the two links around the new one
  have hold (i a : Nat) (hi : i ≤ s.nodes) (ha : a < 48) (hk' : i ≠ k ∨ a ≠ 40)
      (hj' : i ≠ j ∨ a ≠ 32) : s'.mem (env.slot i + a) = s.mem (env.slot i + a) := by
    have hfresh (b : Nat) (hb : b < 48) : env.slot i + a ≠ env.slot (s.nodes + 1) + b :=
      slot_add_ne hdoc ha hb (Or.inl (by omega))
    have hfresh' : env.slot i + a ≠ env.slot (s.nodes + 1) := hfresh 0 (by omega)
    rw [hmem, if_neg (slot_add_ne hdoc ha (by omega) hk'),
      if_neg (slot_add_ne hdoc ha (by omega) hj'), if_neg (hfresh 40 (by omega)),
      if_neg (hfresh 32 (by omega)), if_neg (hfresh 24 (by omega)), if_neg (hfresh 16 (by omega)),
      if_neg hfresh']
  have holdSize (i : Nat) (hi : i ≤ s.nodes) : s'.mem (env.slot i) = s.mem (env.slot i) :=
    hold i 0 hi (by omega) (Or.inr (by omega)) (Or.inr (by omega))
  have hfreshNode (a : Nat) (ha : a < 32) : s'.mem (env.slot (s.nodes + 1) + a) =
      if a = 24 ∨ a = 16 then env.slot (s.nodes + 1) + 8
      else if a = 0 then size else s.mem (env.slot (s.nodes + 1) + a) := by
    rw [hmem, if_neg (slot_add_ne hdoc (by omega) (by omega) (Or.inr (by omega))),
      if_neg (slot_add_ne hdoc (by omega) (by omega) (Or.inr (by omega)))]
    simp only [Nat.add_left_cancel_iff, show a ≠ 40 by omega, show a ≠ 32 by omega, if_false,
      Nat.add_eq_left]
    by_cases h24 : a = 24
    · simp [h24]
    · simp [h24]
  have hnodup := h.nodeNodup
  have hnot : env.slot (s.nodes + 1) ∉ (pre ++ post).map SizeList.node := by
    intro hin
    obtain ⟨l, hl, he⟩ := List.mem_map.mp hin
    obtain ⟨i, -, hi, he'⟩ := h.nodeSlots l hl
    have := slot_injective hdoc (he'.symm.trans he)
    omega
  refine ⟨s', hs', ⟨hend, hheap⟩, ?_, ?_, ?_, ?_, ?_, ?_, ?_, ?_, ?_⟩
  · rw [State.nodeSize, holdSize 0 (Nat.zero_le _)]
    exact h.headSize
  · rw [List.map_append, List.map_cons]
    refine hring.insert ?_ hprev hnext (fun n hn hne => ?_) (fun n hn hne => ?_) ⟨?_, ?_⟩ ⟨?_, ?_⟩
    · rw [← List.map_append]
      refine List.nodup_cons.mpr ⟨fun hin => ?_, hnodup⟩
      obtain ⟨l, hl, he⟩ := List.mem_map.mp hin
      obtain ⟨i, hi, -, he'⟩ := h.nodeSlots l hl
      have := slot_injective hdoc (he'.symm.trans he)
      omega
    · obtain ⟨i, hi, rfl⟩ := hslots n hn
      exact hold i 32 hi (by omega) (Or.inr (by omega)) (Or.inl fun he => hne (he ▸ rfl))
    · obtain ⟨i, hi, rfl⟩ := hslots n hn
      exact hold i 40 hi (by omega) (Or.inl fun he => hne (he ▸ rfl)) (Or.inr (by omega))
    · rw [State.nodeNext, hmem, if_neg (slot_add_ne hdoc (by omega) (by omega) (Or.inr (by omega))),
        if_pos rfl]
    · have hfresh : s.nodes + 1 ≠ k := by omega
      rw [State.nodePrev, hmem, if_neg (slot_add_ne hdoc (by omega) (by omega) (Or.inl hfresh)),
        if_neg (slot_add_ne hdoc (by omega) (by omega) (Or.inr (by omega))), if_pos rfl]
    · have hfresh : s.nodes + 1 ≠ j := by omega
      rw [State.nodeNext, hmem, if_neg (slot_add_ne hdoc (by omega) (by omega) (Or.inr (by omega))),
        if_neg (slot_add_ne hdoc (by omega) (by omega) (Or.inl hfresh)),
        if_neg (slot_add_ne hdoc (by omega) (by omega) (Or.inr (by omega))), if_pos rfl]
    · rw [State.nodePrev, hmem, if_pos rfl]
  · rw [hnodes, ← h.nodeCount]
    simp
    omega
  · intro l hl
    rw [hnodes]
    rcases mem_middle.mp hl with rfl | hl
    · exact ⟨s.nodes + 1, by omega, by omega, rfl⟩
    · obtain ⟨i, hi, hi', he⟩ := h.nodeSlots l hl
      exact ⟨i, hi, by omega, he⟩
  · rw [List.map_append, List.map_cons, List.nodup_middle, List.nodup_cons, ← List.map_append]
    exact ⟨hnot, hnodup⟩
  · intro l hl
    rcases mem_middle.mp hl with rfl | hl
    · exact (hfreshNode 0 (by omega)).trans (by simp)
    · obtain ⟨i, -, hi, he⟩ := h.nodeSlots l hl
      rw [State.nodeSize, he, holdSize i hi, ← he]
      exact h.nodeSizes l hl
  · intro l hl
    rcases mem_middle.mp hl with rfl | hl
    · have h16 := hfreshNode 16 (by omega)
      have h24 := hfreshNode 24 (by omega)
      rw [if_pos (by omega)] at h16 h24
      exact .cons_cons ⟨h16, h24⟩ (.singleton _)
    · refine (h.ring l hl).congr fun u hu => ?_
      rcases List.mem_cons.mp hu with rfl | hu
      · obtain ⟨i, -, hi, he⟩ := h.nodeSlots l hl
        have h16 := hold i 16 hi (by omega) (Or.inr (by omega)) (Or.inr (by omega))
        have h24 := hold i 24 hi (by omega) (Or.inr (by omega)) (Or.inr (by omega))
        rw [← he] at h16 h24
        exact ⟨h16, h24⟩
      · obtain ⟨hu₁, hu₂, hu₃⟩ := h.inHeap l hl u hu
        exact ⟨hheap _ (by omega) (by omega), hheap _ (by omega) (by omega)⟩
  · intro l hl
    rcases mem_middle.mp hl with rfl | hl
    · simp
    · exact h.inHeap l hl
  · rw [List.flatMap_append, List.flatMap_cons, List.nil_append, ← List.flatMap_append]
    exact h.nodup

end CSE320.Sfmm
