import CSE320.Sfmm.Malloc

namespace CSE320.Sfmm

variable {env : Sfutil} {s : State} {blocks pre post : List Blk} {epi : Info}
  {lists : List SizeList} {out : List Nat} {b t m : Blk} {x n : Nat}

namespace Shows

theorem setNextHeader (hdoc : Documented env) (h : Shows env s (pre ++ post) epi lists out)
    (v : Bool) :
    Shows env (s.setInfo (firstBlock env + total pre) (Info.setPrev v)) (pre ++ markHeader v post)
      (markEpilogue v post epi) lists out := by
  have hshape : (pre ++ markHeader v post).map Blk.shape = (pre ++ post).map Blk.shape := by
    rw [List.map_append, shape_markHeader, ← List.map_append]
  refine h.reshape (h.tiled.setNextHeader v) (h.listed.setInfo ?_) hshape
    (markEpilogue_closed h.closed)
  cases post with
  | nil =>
      rw [h.tiled.next_eq.1 rfl]
      exact h.no_link_epilogue hdoc
  | cons c rest => exact h.no_link hdoc (at_middle _ pre rest c) (Or.inl rfl)

theorem setNext (hdoc : Documented env) (h : Shows env s (pre ++ post) epi lists out) (v : Bool) :
    Shows env ((s.setInfo (firstBlock env + total pre) (Info.setPrev v)).setInfo
      (footOf s (firstBlock env + total pre)) (Info.setPrev v)) (pre ++ markNext v post)
      (markEpilogue v post epi) lists out := by
  have hhead := h.setNextHeader hdoc v
  have hshape : (pre ++ markNext v post).map Blk.shape =
      (pre ++ markHeader v post).map Blk.shape := by
    rw [List.map_append, List.map_append, shape_markNext, shape_markHeader]
  refine hhead.reshape (h.tiled.setNext h.closed.2 v) (hhead.listed.setInfo ?_) hshape hhead.closed
  rw [footOf, h.tiled.next_eq.2]
  cases post with
  | nil =>
      rw [nextInfo, if_neg (by simp [h.closed.2]), h.memEnd]
      exact hhead.no_link_epilogue hdoc
  | cons c rest =>
      have hc : c.info.size ≠ 0 := by
        have hc := h.tiled.sized c (by simp)
        rw [Blk.size] at hc
        omega
      rw [nextInfo, if_pos hc]
      exact hhead.no_link hdoc (at_middle _ pre rest _) (Or.inr (Or.inl rfl))

-- An allocated block becomes free by writes inside it, and is not yet in a list.
theorem release (s' : State) (c : Blk) (hdoc : Documented env)
    (h : Shows env s (pre ++ b :: post) epi lists []) (hx : x = firstBlock env + total pre)
    (halloc : b.info.allocated = true) (hend : s'.memEnd = s.memEnd) (hnodes : s'.nodes = s.nodes)
    (hsame : ∀ w, (w < x ∨ x + b.size ≤ w) → s'.mem w = s.mem w) (hinfo : s'.info x = c.info)
    (hfoot : s'.info (x + b.size - 8) = c.foot) (hsize : c.size = b.size) :
    Shows env s' (pre ++ c :: post) epi lists [x] := by
  have hat := at_middle (firstBlock env) pre post b
  rw [← hx] at hat
  have hb := h.tiled.sized b (by simp)
  have htiled := h.tiled.rewrite hend hsize (hx ▸ hsame) (hx ▸ hinfo) (fun _ => hx ▸ hfoot)
  have hseg : Shows env s (pre ++ [b] ++ post) epi lists [] := by simpa using h
  have hres := hseg.replaced [c] [x] (by simpa using htiled)
    (h.listed_inside hdoc hat (h.not_on_allocated hat halloc) hnodes hsame)
      (by simp [hsize]) h.closed
    (by simp [← hx]; omega) (fun y k => ?_)
  · simpa using hres
  · rw [← hx]
    simp only [freeFrom_cons, freeFrom_nil, or_false, halloc, List.mem_singleton]
    grind

end Shows

-- A block as put_into_free leaves it.
def freedInfo (i : Info) : Info := { i with requestedSize := 0, allocated := false }

def freed (b : Blk) : Blk where
  info := freedInfo b.info
  foot := { freedInfo b.info with twoZeroes := 0 }

theorem markFree_spec (hdoc : Documented env) (h : Shows env s (pre ++ b :: post) epi lists [])
    (hx : x = firstBlock env + total pre) (halloc : b.info.allocated = true) :
    Shows env (markFree s x) (pre ++ freed b :: markNext false post) (markEpilogue false post epi)
      lists [x] := by
  have hat := at_middle (firstBlock env) pre post b
  rw [← hx] at hat
  have hinfo := h.tiled.header x b hat
  have hb := h.tiled.sized b (by simp)
  have hbsize : b.info.size = b.size := rfl
  -- the two tags of the block itself
  have hown :=
    h.release ((s.setInfo x freedInfo).setInfo (x + b.size - 8) (fun _ => (freed b).foot))
    (freed b) hdoc hx halloc rfl rfl
    (fun w hw => by rw [State.mem_setInfo_ne _ _ (by omega), State.mem_setInfo_ne _ _ (by omega)])
    (by
      rw [State.info_setInfo_ne _ _ (by omega), State.info_setInfo_self, hinfo]
      rfl)
    (State.info_setInfo_self _ _) rfl
  have hfoot : footOf ((s.setInfo x freedInfo).setInfo (x + b.size - 8) (fun _ => (freed b).foot))
      (x + b.size) = footOf s (x + b.size) := by
    simp (disch := omega) only [footOf, State.info_setInfo_ne, State.setInfo_memEnd]
  have hplace : firstBlock env + total (pre ++ [freed b]) = x + b.size := by
    have hfreed : (freed b).size = b.size := rfl
    simp only [total_append, total_cons, total_nil, hfreed]
    omega
  rw [List.append_cons] at hown
  have hnext := hown.setNext hdoc false
  rw [hplace, hfoot, ← List.append_cons] at hnext
  have heq : markFree s x = (((s.setInfo x freedInfo).setInfo (x + b.size - 8)
      (fun _ => (freed b).foot)).setInfo (x + b.size) (Info.setPrev false)).setInfo
      (footOf s (x + b.size)) (Info.setPrev false) := by
    rw [markFree, hinfo, hbsize, State.info_setInfo_self, hinfo]
    rfl
  rw [heq]
  exact hnext

theorem at_pair (hx : x = firstBlock env + total pre) (t m : Blk) (post : List Blk) :
    At (firstBlock env) (pre ++ t :: m :: post) x t ∧
      At (firstBlock env) (pre ++ t :: m :: post) (x + t.size) m := by
  subst hx
  exact ⟨at_middle _ pre (m :: post) t, at_second _ pre post t m⟩

-- Two adjacent free blocks as one.
def merged (t m : Blk) : Blk where
  info :=
    { t.info with
      requestedSize := 0, blockSize := Info.blocks (t.size + m.size), twoZeroes := 0 }
  foot :=
    { allocated := false, prevAllocated := t.info.prevAllocated, twoZeroes := 0,
      blockSize := Info.blocks (t.size + m.size), requestedSize := 0 }

theorem merged_size (hlt : t.size + m.size < 2 ^ 32) : (merged t m).size = t.size + m.size := by
  have ht : t.size % 16 = 0 := Info.size_mod t.info
  have hm : m.size % 16 = 0 := Info.size_mod m.info
  exact Info.size_blocks (by omega) hlt { t.info with requestedSize := 0, twoZeroes := 0 }

theorem mergeBlocks_spec (hdoc : Documented env)
    (h : Shows env s (pre ++ t :: m :: post) epi lists []) (hx : x = firstBlock env + total pre)
    (ht : t.info.allocated = false) (hm : m.info.allocated = false) :
    ∃ lists', Shows env (mergeBlocks s x (x + t.size) (x + t.size + m.size - 8))
        (pre ++ merged t m :: markHeader false post) (markEpilogue false post epi) lists' [x] ∧
      lists'.map SizeList.size = lists.map SizeList.size ∧
      ∀ n, t.size < n → m.size < n → lists'.filter (n ≤ ·.size) = lists.filter (n ≤ ·.size) := by
  obtain ⟨htop, hbottom⟩ := at_pair hx t m post
  have htb := h.tiled.bounds htop
  have hmb := h.tiled.bounds hbottom
  obtain ⟨lists₁, h₁, hsizes₁, habove₁, -⟩ := h.unlink hdoc ⟨t, htop, ht, rfl⟩ List.not_mem_nil
  have hother : x + t.size ∉ [x] := by
    simp only [List.mem_singleton]
    omega
  obtain ⟨lists₂, h₂, hsizes₂, habove₂, -⟩ := h₁.unlink hdoc ⟨m, hbottom, hm, rfl⟩ hother
  have hsize : (merged t m).size = t.size + m.size := merged_size (by omega)
  refine ⟨lists₂, ?_, (sizes_of_nodes hsizes₂).trans (sizes_of_nodes hsizes₁), fun n htn hmn =>
    (habove₂ n hmn).trans (habove₁ n htn)⟩
  -- the tags of the new block
  have hfoot : ¬LinkWord env ((s.unlink x).unlink (x + t.size)) lists₂ (x + t.size + m.size - 8) :=
    h₂.no_link hdoc hbottom (Or.inr (Or.inl rfl))
  have hlisted : Listed env
      ((((s.unlink x).unlink (x + t.size)).setInfo x fun _ => (merged t m).info).setInfo
        (x + t.size + m.size - 8) fun _ => (merged t m).foot) lists₂ :=
    (h₂.listed.setInfo (h₂.no_link hdoc htop (Or.inl rfl))).setInfo hfoot
  have hseg : Shows env ((s.unlink x).unlink (x + t.size)) (pre ++ [t, m] ++ post) epi lists₂
      [x + t.size, x] := by
    simpa using h₂
  have htotal : total [merged t m] = total [t, m] := by
    simp only [total_cons, total_nil]
    omega
  have htiled : Tiled env
      ((((s.unlink x).unlink (x + t.size)).setInfo x fun _ => (merged t m).info).setInfo
        (x + t.size + m.size - 8) fun _ => (merged t m).foot)
      (pre ++ [merged t m] ++ post) epi := by
    refine hseg.tiled.replace rfl htotal (fun c hc => ?_) (fun w hw => ?_) (fun y c hc => ?_)
    · rw [List.mem_singleton.mp hc]
      omega
    · rw [← hx] at hw
      simp only [total_cons, total_nil] at hw
      rw [State.mem_setInfo_ne _ _ (by omega), State.mem_setInfo_ne _ _ (by omega)]
    · rw [← hx] at hc
      obtain ⟨hy, rfl⟩ | hc := hc
      · rw [hy, hsize, show x + (t.size + m.size) - 8 = x + t.size + m.size - 8 by omega,
          State.info_setInfo_self, State.info_setInfo_ne _ _ (by omega), State.info_setInfo_self]
        exact ⟨rfl, fun _ => rfl⟩
      · exact absurd hc id
  have hone := hseg.replaced [merged t m] [x] htiled hlisted htotal h.closed (fun y hy => ?_)
    (fun y k => ?_)
  · have hnext := hone.setNextHeader hdoc false
    have hplace : firstBlock env + total (pre ++ [merged t m]) = x + t.size + m.size - 8 + 8 := by
      simp only [total_append, total_cons, total_nil, hsize]
      omega
    rw [hplace, ← List.append_cons] at hnext
    have heq : mergeBlocks s x (x + t.size) (x + t.size + m.size - 8) =
        ((((s.unlink x).unlink (x + t.size)).setInfo x fun _ => (merged t m).info).setInfo
          (x + t.size + m.size - 8) fun _ => (merged t m).foot).setInfo (x + t.size + m.size - 8 + 8)
          (Info.setPrev false) := by
      have hinfo := h₂.tiled.header x t htop
      have htinfo : (s.info x).size = t.size := by rw [h.tiled.header x t htop]; rfl
      have hminfo : (s.info (x + t.size)).size = m.size := by rw [h.tiled.header _ m hbottom]; rfl
      have hhead : (((s.unlink x).unlink (x + t.size)).setInfo x fun i =>
          { i with requestedSize := 0, blockSize := Info.blocks (t.size + m.size), twoZeroes := 0 }) =
          ((s.unlink x).unlink (x + t.size)).setInfo x fun _ => (merged t m).info := by
        refine State.setInfo_congr _ _ ?_
        rw [hinfo]
        rfl
      rw [mergeBlocks, htinfo, hminfo]
      simp only [hhead, State.info_setInfo_self]
      rfl
    rw [heq]
    exact hnext
  · simp only [List.mem_append, List.mem_cons, List.not_mem_nil, or_false] at hy
    simp only [← hx, total_cons, total_nil]
    omega
  · rw [← hx]
    simp only [freeFrom_cons, freeFrom_nil, or_false, List.mem_cons, List.not_mem_nil]
    grind

-- The merge writes in the two blocks and the header behind them.
theorem mergeBlocks_samePayloads (hdoc : Documented env)
    (h : Shows env s (pre ++ t :: m :: post) epi lists []) (hx : x = firstBlock env + total pre)
    (ht : t.info.allocated = false) (hm : m.info.allocated = false) :
    SamePayloads env (pre ++ t :: m :: post) s
      (mergeBlocks s x (x + t.size) (x + t.size + m.size - 8)) := by
  obtain ⟨htop, hbottom⟩ := at_pair hx t m post
  have htb := h.tiled.bounds htop
  have hmb := h.tiled.bounds hbottom
  obtain ⟨_, h₁, -, -, hsame₁⟩ := h.unlink hdoc ⟨t, htop, ht, rfl⟩ List.not_mem_nil
  obtain ⟨_, _, -, -, hsame₂⟩ := h₁.unlink hdoc ⟨m, hbottom, hm, rfl⟩ (show x + t.size ∉ [x] by
    simp only [List.mem_singleton]
    omega)
  intro y c hc halloc w hlow hhigh
  have hcb := h.tiled.bounds hc
  -- an allocated block is apart from both
  have hapart {z : Nat} {d : Blk} (hd : At (firstBlock env) (pre ++ t :: m :: post) z d)
      (hfree : d.info.allocated = false) : ¬(z ≤ w ∧ w < z + d.size) := by
    intro hin
    obtain ⟨-, rfl⟩ := hc.unique hd ⟨hlow.le, hhigh⟩ hin
    rw [halloc] at hfree
    cases hfree
  have hwt := hapart htop ht
  have hwm := hapart hbottom hm
  have hbehind : w ≠ x + t.size + m.size := by
    rintro rfl
    obtain ⟨-, rfl⟩ := hc.unique hbottom (w := x + t.size + m.size - 1) (by omega) (by omega)
    rw [halloc] at hm
    cases hm
  rw [mergeBlocks, State.mem_setInfo_ne _ _ (by omega), State.mem_setInfo_ne _ _ (by omega),
    State.mem_setInfo_ne _ _ (by omega)]
  exact (hsame₁.trans hsame₂) y c hc halloc w hlow hhigh

theorem coherent_merged {p : Bool} (h : Coherent p (pre ++ t :: m :: post) epi)
    (ht : t.info.allocated = false) (hm : m.info.allocated = false) :
    Coherent p (pre ++ merged t m :: markHeader false post) (markEpilogue false post epi) := by
  obtain ⟨hprev, hepi, hfeet⟩ := h
  obtain ⟨hpre, htop, -, hpost⟩ := prevIn_append.mp hprev
  rw [allocEnd_append, allocEnd, allocEnd] at hepi
  rw [hm] at hpost hepi
  have hfoot : FootOk (merged t m) := fun _ => ⟨rfl, rfl, rfl⟩
  have halloc : (merged t m).info.allocated = false := ht
  cases post with
  | nil =>
      refine ⟨prevIn_append.mpr ⟨hpre, htop, trivial⟩, ?_, fun c hc => ?_⟩
      · rw [allocEnd_append, markHeader, allocEnd, allocEnd, halloc]
        rfl
      · simp only [markHeader, List.mem_append, List.mem_cons, List.not_mem_nil, or_false] at hc
        rcases hc with hc | rfl
        · exact hfeet c (by simp [hc])
        · exact hfoot
  | cons d rest =>
      refine ⟨prevIn_append.mpr ⟨hpre, htop, ?_, hpost.2⟩, ?_, fun c hc => ?_⟩
      · rw [halloc]
        rfl
      · rw [allocEnd_append]
        exact hepi
      · simp only [markHeader, List.mem_append, List.mem_cons] at hc
        rcases hc with hc | rfl | rfl | hc
        · exact hfeet c (by simp [hc])
        · exact hfoot
        · intro hfree
          have hd := hfeet d (by simp) hfree
          exact ⟨hd.1, hd.2.1, hd.2.2.trans hpost.1⟩
        · exact hfeet c (by simp [hc])

variable (env s)

-- The list for the size, where a block of that size would go, has at most one
-- block: next and prev of its head agree.
def Roomy (size : Nat) : Prop :=
  match place env s size with
  | .ok (.equal node) => s.linkNext (head node) = s.linkPrev (head node)
  | _ => True

instance (size : Nat) : Decidable (Roomy env s size) :=
  match h : place env s size with
  | .ok (.equal node) =>
    decidable_of_iff (s.linkNext (head node) = s.linkPrev (head node)) (by simp only [Roomy, h])
  | .ok (.before _) => .isTrue (by simp only [Roomy, h])
  | .ok .atEnd => .isTrue (by simp only [Roomy, h])
  | .error _ => .isTrue (by simp only [Roomy, h])

-- The calls of sf_free that keep the heap safe: the block, and what it merges with
-- its next one to, go to lists with room.
def FreeOk (ptr : Nat) : Prop :=
  let i := s.info (ptr - 8)
  let next := s.info (ptr - 8 + i.size)
  Roomy env s i.size ∧ (next.allocated = false → Roomy env s (i.size + next.size))

instance (ptr : Nat) : Decidable (FreeOk env s ptr) := inferInstanceAs (Decidable (_ ∧ (_ → _)))

variable {env s}

theorem Shows.roomy (hdoc : Documented env) (h : Shows env s blocks epi lists out) (hn : 0 < n)
    (hroom : Roomy env s n) : RoomyLists lists n := by
  intro l hl hsize
  rw [Roomy, h.place hn, hl] at hroom
  simp only [hsize, if_true] at hroom
  exact (h.listed.single_iff hdoc (List.mem_of_find?_eq_some hl)).mp hroom

theorem RoomyLists.of_above {lists' : List SizeList} (h : RoomyLists lists n)
    (habove : lists'.filter (n ≤ ·.size) = lists.filter (n ≤ ·.size)) : RoomyLists lists' n := by
  intro l hl
  apply h l
  rw [← List.head?_filter] at hl ⊢
  rwa [← habove]

theorem coalesce_spec (hdoc : Documented env) (h : Shows env s (pre ++ t :: m :: post) epi lists [])
    (hx : x = firstBlock env + total pre) (ht : t.info.allocated = false)
    (hm : m.info.allocated = false) (hroom : RoomyLists lists (t.size + m.size)) :
    ∃ s' lists', coalesce env s x (x + t.size) (x + t.size + m.size - 8) = .ok s' ∧
      Shows env s' (pre ++ merged t m :: markHeader false post)
        (markEpilogue false post epi) lists' [] ∧
      (Sorted lists ↔ Sorted lists') ∧ SamePayloads env (pre ++ t :: m :: post) s s' := by
  obtain ⟨htop, hbottom⟩ := at_pair hx t m post
  have htb := h.tiled.bounds htop
  have hmb := h.tiled.bounds hbottom
  obtain ⟨lists₁, h₁, hsizes, habove⟩ := mergeBlocks_spec hdoc h hx ht hm
  have hat := at_middle (firstBlock env) pre (markHeader false post) (merged t m)
  rw [← hx] at hat
  have hsize : (merged t m).size = t.size + m.size := merged_size (by omega)
  obtain ⟨s', lists', hins, hshows, hinserted, hsame⟩ :=
    h₁.insert hdoc (linksNew_linkFrontPrev hdoc)
    ⟨_, hat, ht, hsize⟩ List.not_mem_nil
    (hroom.of_above (habove _ (by omega) (by omega)))
    ((mergeBlocks s x (x + t.size) (x + t.size + m.size - 8)).nodeNext (env.slot 0))
  refine ⟨s', lists', ?_, hshows, ?_, (mergeBlocks_samePayloads hdoc h hx ht hm).trans ?_⟩
  · rw [coalesce, h.tiled.header x t htop, h.tiled.header _ m hbottom]
    exact hins
  · rw [Sorted, ← hsizes]
    exact hinserted.sorted
  · refine hsame.of_keeps fun z => ?_
    have hkeep : KeepsLabels env z (pre ++ [t, m] ++ post)
        (pre ++ merged t m :: markHeader false post) := by
      refine keepsLabels_of [merged t m] (by simp [label_markHeader]) (by simp [hsize])
        fun y c hc halloc => ?_
      rcases hc with ⟨-, rfl⟩ | ⟨-, rfl⟩ | hc
      · rw [ht] at halloc
        cases halloc
      · rw [hm] at halloc
        cases halloc
      · exact absurd hc id
    simpa using hkeep

theorem putIntoFree_spec (hdoc : Documented env) (h : Shows env s (pre ++ b :: post) epi lists [])
    (hx : x = firstBlock env + total pre) (halloc : b.info.allocated = true)
    (hroom : RoomyLists lists b.size) :
    ∃ s' lists', putIntoFree env s (x + 8) = .ok s' ∧
      Shows env s' (pre ++ freed b :: markNext false post) (markEpilogue false post epi) lists' [] ∧
      Inserted b.size lists lists' := by
  have hat := at_middle (firstBlock env) pre (markNext false post) (freed b)
  rw [← hx] at hat
  have hmark := markFree_spec hdoc h hx halloc
  obtain ⟨s', lists', hins, hshows, hinserted, -⟩ := hmark.insert hdoc (linksNew_linkFront hdoc)
    ⟨_, hat, rfl, rfl⟩ List.not_mem_nil hroom
    ((markFree s x).nodePrev ((markFree s x).nodeNext (env.slot 0)))
  refine ⟨s', lists', ?_, hshows, hinserted⟩
  rw [putIntoFree, Nat.add_sub_cancel, hmark.tiled.header x _ hat]
  exact hins

-- The bit that sf_free reads for the previous block is a bit of an address.
theorem Shows.link_bit (hdoc : Documented env) (h : Shows env s blocks epi lists [])
    (hx : FreeAt env blocks x n) : (s.info (x + 8)).prevAllocated = false := by
  obtain ⟨l, hl, hxl, -⟩ := (h.free x n).mpr ⟨hx, List.not_mem_nil⟩
  have howner := h.listed.owner hl (h.listed.neighbours hl hxl).1
  have hmod : s.linkNext x % 8 = 0 := by
    rcases howner with ⟨-, -, hmod⟩ | ⟨k, hk⟩
    · omega
    · have hslot := hdoc.slotAligned k
      rw [hk, head]
      omega
  have hbit : s.mem (x + 8) / 2 % 2 = 0 := by
    rw [State.linkNext] at hmod
    omega
  simp [State.info, Info.ofWord, hbit]

-- What sf_free does to the blocks, up to the bits that do not count for their
-- shape.
inductive Frees (pre : List Blk) (b : Blk) (post : List Blk) (blocks' : List Blk) : Prop
  | alone (f : Blk) (hnext : ∀ c ∈ post.head?, c.info.allocated = true)
      (hf : f.shape = (b.size, false))
      (hshape : blocks'.map Blk.shape = (pre ++ f :: post).map Blk.shape)
  | merged (f c : Blk) (rest : List Blk) (hpost : post = c :: rest) (hc : c.info.allocated = false)
      (hf : f.shape = (b.size + c.size, false))
      (hshape : blocks'.map Blk.shape = (pre ++ f :: rest).map Blk.shape)

theorem sfFree_spec (hdoc : Documented env) (h : Shows env s (pre ++ b :: post) epi lists [])
    (hx : x = firstBlock env + total pre) (halloc : b.info.allocated = true)
    (hok : FreeOk env s (x + 8)) (hvalid : checkPtr env s (x + 8) = .valid) :
    ∃ s' blocks' epi' lists', sfFree env s (x + 8) = .ok s' ∧ Shows env s' blocks' epi' lists' [] ∧
      Frees pre b post blocks' ∧ (Sorted lists ↔ Sorted lists') ∧
      (Coherent true (pre ++ b :: post) epi → Coherent true blocks' epi') ∧
      KeepsLabels env x (pre ++ b :: post) blocks' := by
  have hat := at_middle (firstBlock env) pre post b
  rw [← hx] at hat
  have hb := h.tiled.sized b (by simp)
  have hbsize : b.info.size = b.size := rfl
  obtain ⟨hroom, hroomNext⟩ := hok
  rw [Nat.add_sub_cancel, h.tiled.header x b hat, hbsize] at hroom hroomNext
  obtain ⟨s₁, lists₁, hput, h₁, hinserted⟩ :=
    putIntoFree_spec hdoc h hx halloc (h.roomy hdoc (by omega) hroom)
  have hat₁ := at_middle (firstBlock env) pre (markNext false post) (freed b)
  rw [← hx] at hat₁
  have hfreed : (freed b).size = b.size := rfl
  have hinfo : (s₁.info x).size = b.size := by rw [h₁.tiled.header x _ hat₁]; rfl
  have hbit := h₁.link_bit hdoc ⟨_, hat₁, rfl, rfl⟩
  have hnext : s.info (x + b.size) = nextInfo post epi := hx ▸ h.tiled.info_behind
  have hnext₁ : s₁.info (x + b.size) =
      nextInfo (markNext false post) (markEpilogue false post epi) :=
    hx ▸ h₁.tiled.info_behind
  have hcoh (hc : Coherent true (pre ++ b :: post) epi) :
      Coherent true (pre ++ freed b :: markNext false post) (markEpilogue false post epi) :=
    coherent_markNext (freed b) hc (prevIn_append.mp hc.prev).1 (prevIn_append.mp hc.prev).2.1
      (fun _ => ⟨rfl, rfl, rfl⟩)
  have hlabels : KeepsLabels env x (pre ++ b :: post) (pre ++ freed b :: markNext false post) := by
    have hkeep : KeepsLabels env x (pre ++ [b] ++ post) (pre ++ freed b :: markNext false post) :=
      keepsLabels_of [freed b] (by simp [label_markNext]) rfl fun y c hin _ => by
        rcases hin with ⟨hy, -⟩ | hin
        · rw [hx, hy]
        · exact absurd hin id
    simpa using hkeep
  have hdone : sfFree env s (x + 8) =
      if (s₁.info (x + b.size)).allocated = false ∧ footOf s₁ (x + b.size) ≠ s₁.memEnd - 8 then
        coalesce env s₁ x (x + b.size) (footOf s₁ (x + b.size))
      else .ok s₁ := by
    rw [sfFree, validPtr, hvalid]
    simp only [Lib.ok_bind, hput, hbit, Nat.add_sub_cancel, hinfo, Bool.false_eq_true,
      false_and, if_false, Lib.pure_eq_ok]
  rw [hdone]
  cases post with
  | nil =>
      have hepi : (s₁.info (x + b.size)).allocated = true := by
        rw [hnext₁]
        exact h₁.closed.1
      simp only [hepi, Bool.true_eq_false, false_and, if_false]
      exact ⟨s₁, _, _, lists₁, rfl, h₁, .alone (freed b) (by simp) rfl rfl, hinserted.sorted,
        hcoh, hlabels⟩
  | cons c rest =>
      rw [nextInfo] at hnext
      have hnextAlloc : (s₁.info (x + b.size)).allocated = c.info.allocated := by rw [hnext₁]; rfl
      by_cases hc : c.info.allocated = true
      · simp only [hnextAlloc, hc, Bool.true_eq_false, false_and, if_false]
        refine ⟨s₁, _, _, lists₁, rfl, h₁, .alone (freed b) (by simp [hc]) rfl ?_, hinserted.sorted,
          hcoh, hlabels⟩
        rw [List.map_append, List.map_cons, shape_markNext, ← List.map_cons, ← List.map_append]
      · have hcfree : c.info.allocated = false := by simpa using hc
        have hcsize : (s₁.info (x + b.size)).size = c.size := by rw [hnext₁]; rfl
        have hcat : At (firstBlock env) (pre ++ b :: c :: rest) (x + b.size) c :=
          hx ▸ at_second _ pre rest b c
        have hcb := h.tiled.bounds hcat
        have hfoot : footOf s₁ (x + b.size) = x + b.size + c.size - 8 := by
          rw [footOf, hcsize, if_pos (by omega)]
        rw [hnext] at hroomNext
        have hroom' :=
          (h.roomy hdoc (show 0 < b.size + c.size by omega) (hroomNext hcfree)).of_above
          (hinserted.above _ (by omega))
        obtain ⟨s₂, lists₂, hmerge, h₂, hsorted, -⟩ := coalesce_spec hdoc h₁ hx rfl hcfree hroom'
        have hne : x + b.size + c.size - 8 ≠ s₁.memEnd - 8 := by
          rw [h₁.memEnd]
          omega
        have hbb := h.tiled.bounds hat
        have hmerged : (merged (freed b) (c.setPrev false)).size = b.size + c.size :=
          merged_size (show b.size + c.size < 2 ^ 32 by omega)
        simp only [hnextAlloc, hcfree, hfoot, ne_eq, hne, not_false_eq_true, and_self, if_true]
        refine ⟨s₂, _, _, lists₂, hmerge, h₂,
          .merged (merged (freed b) (c.setPrev false)) c rest rfl hcfree ?_ ?_,
          hinserted.sorted.trans hsorted, fun hs => coherent_merged (hcoh hs) rfl hcfree, ?_⟩
        · rw [Blk.shape, hmerged]
          rfl
        · rw [List.map_append, List.map_cons, shape_markHeader, ← List.map_cons, ← List.map_append]
        · have hkeep : KeepsLabels env x (pre ++ [b, c] ++ rest)
              (pre ++ merged (freed b) (c.setPrev false) :: markHeader false rest) :=
            keepsLabels_of [merged (freed b) (c.setPrev false)] (by simp [label_markHeader])
              (by simp [hmerged]) fun y d hin hd => by
                rcases hin with ⟨hy, -⟩ | ⟨-, rfl⟩ | hin
                · rw [hx, hy]
                · rw [hcfree] at hd
                  cases hd
                · exact absurd hin id
          simpa using hkeep

end CSE320.Sfmm
