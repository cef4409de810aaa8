import CSE320.Sfmm.Resize

namespace CSE320.Sfmm

variable (env : Sfutil)

-- Each allocation of the client is the front of an allocated block.
structure Owned (w : World) (blocks : List Blk) : Prop where
  block : ∀ l ∈ w.live, 8 ≤ l.ptr ∧ ∃ b, At (firstBlock env) blocks (l.ptr - 8) b ∧
    b.info.allocated = true ∧ l.size + 8 ≤ b.size
  nodup : (w.live.map Live.ptr).Nodup

variable {env} {s : State} {blocks blocks' pre old mid post : List Blk} {epi : Info}
  {lists : List SizeList} {w : World} {a x : Nat} {b c : Blk}

-- A walk over the heap visits the blocks and then the epilogue.
theorem Tiled.walk (h : Tiled env s blocks epi) (hw : Walk env s a) :
    (∃ b, At (firstBlock env) blocks a b) ∨ a = env.memStart + 4088 := by
  have hend : s.memEnd - 8 = env.memStart + 4088 := by
    rw [h.memEnd]
    omega
  induction hw with
  | first =>
      cases blocks with
      | nil =>
          have ht := h.total
          simp at ht
      | cons b rest => exact Or.inl ⟨b, Or.inl ⟨rfl, rfl⟩⟩
  | @next a ha hlt ih =>
      rcases ih with ⟨b, hb⟩ | rfl
      · rw [h.header a b hb]
        obtain ⟨pre, post, rfl, rfl⟩ := hb.split
        cases post with
        | nil =>
            have ht := h.total
            simp only [total_append, total_cons, total_nil] at ht
            refine Or.inr ?_
            show firstBlock env + Sfmm.total pre + b.size = _
            simp only [firstBlock]
            omega
        | cons c rest => exact Or.inl ⟨c, at_second _ pre rest b c⟩
      · omega

theorem Tiled.isBlock (h : Tiled env s blocks epi) (ha : IsBlock env s a) :
    ∃ b, At (firstBlock env) blocks a b ∧ s.info a = b.info := by
  rcases h.walk ha.1 with ⟨b, hb⟩ | rfl
  · exact ⟨b, hb, h.header a b hb⟩
  · have hlt := ha.2
    rw [h.memEnd] at hlt
    omega

theorem Tiled.walk_of_at (h : Tiled env s blocks epi) (ha : At (firstBlock env) blocks a b) :
    IsBlock env s a := by
  have hbound := h.bounds ha
  refine ⟨?_, by rw [h.memEnd]; omega⟩
  obtain ⟨pre, post, hblocks, rfl⟩ := ha.split
  -- the walk comes to a block through the blocks in front of it
  induction pre using List.reverseRecOn generalizing b post with
  | nil => exact .first
  | append_singleton front c ih =>
      rw [List.append_assoc] at hblocks
      have hc : At (firstBlock env) blocks (firstBlock env + Sfmm.total front) c := by
        rw [hblocks]
        exact at_middle _ front (b :: post) c
      have hcbound := h.bounds hc
      have hwalk := ih (b :: post) hblocks hc hcbound
      have hnext : Walk env s _ := .next hwalk (by rw [h.memEnd]; omega)
      rw [h.header _ c hc, show c.info.size = c.size from rfl] at hnext
      simpa [← Nat.add_assoc] using hnext

theorem Tiled.walk_epilogue (h : Tiled env s blocks epi) : Walk env s (env.memStart + 4088) := by
  have ht := h.total
  rcases List.eq_nil_or_concat blocks with rfl | ⟨front, c, hc⟩
  · simp at ht
  · rw [List.concat_eq_append] at hc
    subst hc
    have hat := at_middle (firstBlock env) front [] c
    have hblock := h.walk_of_at hat
    have hnext : Walk env s _ := .next hblock.1 hblock.2
    rw [h.header _ c hat] at hnext
    have hplace : firstBlock env + Sfmm.total front + c.info.size = env.memStart + 4088 := by
      have hsize : c.info.size = c.size := rfl
      simp only [total_append, total_cons, total_nil] at ht
      simp only [firstBlock]
      omega
    rwa [hplace] at hnext

theorem At.apart {y : Nat} (hx : At a blocks x b) (hy : At a blocks y c) (hne : x ≠ y)
    (hb : 0 < b.size) (hc : 0 < c.size) : x + b.size ≤ y ∨ y + c.size ≤ x := by
  by_contra hover
  rcases Nat.lt_or_ge x y with hlt | hge
  · exact hne (hx.unique hy (w := y) (by omega) (by omega)).1
  · exact hne (hx.unique hy (w := x) (by omega) (by omega)).1

theorem Shows.heapSafe (hdoc : Documented env) (h : Shows env w.heap blocks epi lists [])
    (howned : Owned env w blocks) : HeapSafe env w := by
  have hend := h.memEnd
  refine ⟨fun l hl => ?_, fun l hl => ?_, ?_, fun l hl word hword => ?_⟩
  · obtain ⟨hptr, b, hb, -⟩ := howned.block l hl
    have hmod := (h.tiled.inHeap hdoc hb).2.2
    omega
  · obtain ⟨hptr, b, hb, -, hsize⟩ := howned.block l hl
    have hbound := h.tiled.bounds hb
    rw [hend]
    simp only [firstBlock]
    omega
  · have hpairs : w.live.Pairwise fun l l' => l.ptr ≠ l'.ptr := List.pairwise_map.mp howned.nodup
    refine hpairs.imp_of_mem fun {l l'} hl hl' hne => ?_
    obtain ⟨hptr, b, hb, -, hsize⟩ := howned.block l hl
    obtain ⟨hptr', b', hb', -, hsize'⟩ := howned.block l' hl'
    have hbound := h.tiled.bounds hb
    have hbound' := h.tiled.bounds hb'
    have hapart := hb.apart hb' (by omega) (by omega) (by omega)
    omega
  · obtain ⟨hptr, b, hb, halloc, hsize⟩ := howned.block l hl
    have hbound := h.tiled.bounds hb
    -- a word of another block is apart from this one
    have hother (y : Nat) (c : Blk) (hc : At (firstBlock env) blocks y c) (hne : l.ptr - 8 ≠ y)
        (hin : y ≤ word ∧ word + 8 ≤ y + c.size) : l.ptr + l.size ≤ word ∨ word + 8 ≤ l.ptr := by
      have hcbound := h.tiled.bounds hc
      have hapart := hb.apart hc hne (by omega) (by omega)
      omega
    rcases hword with hword | hword | hword | ⟨y, hy, hword⟩
    · simp only [firstBlock] at hword
      omega
    · rw [hend] at hword
      omega
    · obtain ⟨c, hc, -⟩ := h.tiled.isBlock hword
      have hcbound := h.tiled.bounds hc
      by_cases hne : l.ptr - 8 = word
      · omega
      · exact hother word c hc hne (by omega)
    · obtain ⟨c, hc, hinfo⟩ := h.tiled.isBlock hy.1
      have hcbound := h.tiled.bounds hc
      have hcsize : (w.heap.info y).size = c.size := by rw [hinfo]; rfl
      refine hother y c hc ?_ (by omega)
      rintro rfl
      obtain ⟨-, rfl⟩ := hb.unique hc (w := l.ptr - 8) (by omega) (by omega)
      have hfree := hy.2
      rw [hinfo, halloc] at hfree
      cases hfree

namespace Owned

variable {heap : State} {live : List Live} {size : Nat}

-- The allocations outside a segment of the heap keep their blocks.
theorem keep (h : Owned env w (pre ++ old ++ post)) (hsub : live.Sublist w.live)
    (hnot : ∀ l ∈ live, ∀ b, b.info.allocated = true →
      ¬At (firstBlock env + total pre) old (l.ptr - 8) b)
    (htotal : total mid = total old)
    (hshape : blocks'.map Blk.shape = (pre ++ mid ++ post).map Blk.shape) :
    Owned env ⟨heap, live⟩ blocks' := by
  refine ⟨fun l hl => ?_, h.nodup.sublist (hsub.map _)⟩
  obtain ⟨hptr, b, hb, halloc, hsize⟩ := h.block l (hsub.subset hl)
  obtain ⟨b', hb', hs⟩ := (hb.outside (hnot l hl b halloc) htotal).of_shape hshape
  obtain ⟨hbsize, hballoc⟩ := Prod.mk.inj hs
  exact ⟨hptr, b', hb', hballoc.trans halloc, by omega⟩

theorem add (h : Owned env ⟨heap, live⟩ blocks) (hx : At (firstBlock env) blocks x b)
    (halloc : b.info.allocated = true) (hsize : size + 8 ≤ b.size)
    (hnew : ∀ l ∈ live, l.ptr ≠ x + 8) :
    Owned env ⟨heap, ⟨x + 8, size⟩ :: live⟩ blocks := by
  refine ⟨fun l hl => ?_, ?_⟩
  · rcases List.mem_cons.mp hl with rfl | hl
    · exact ⟨by simp, b, by simpa using hx, halloc, hsize⟩
    · exact h.block l hl
  · refine List.nodup_cons.mpr ⟨fun hmem => ?_, h.nodup⟩
    obtain ⟨l, hl, he⟩ := List.mem_map.mp hmem
    exact hnew l hl he

-- No allocation of the client is at a free block.
theorem not_free (h : Owned env w blocks) (htiled : Tiled env s blocks epi)
    (hx : At (firstBlock env) blocks x b) (hfree : b.info.allocated = false) (l : Live)
    (hl : l ∈ w.live) :
    l.ptr - 8 ≠ x := by
  rintro rfl
  obtain ⟨-, c, hc, halloc, -⟩ := h.block l hl
  have hb := htiled.bounds hx
  have hcb := htiled.bounds hc
  obtain ⟨-, rfl⟩ := hx.unique hc (w := l.ptr - 8) (by omega) (by omega)
  rw [halloc] at hfree
  cases hfree

theorem malloc {ptr : Nat} (h : Owned env w blocks) (htiled : Tiled env s blocks epi)
    (hout : HandsOut env (padding size) blocks ptr blocks') (hsize : size + 8 ≤ padding size) :
    Owned env ⟨heap, if ptr = 0 then w.live else ⟨ptr, size⟩ :: w.live⟩ blocks' := by
  cases hout with
  | failed => exact ⟨h.block, h.nodup⟩
  | @given pre mid post blocks' b hblocks hfree hshape hmid =>
      subst hblocks
      have hat := at_middle (firstBlock env) pre post b
      obtain ⟨first, rest, rfl, hfirst⟩ : ∃ first rest, mid = first :: rest ∧
          first.shape = (padding size, true) := by
        rcases hmid with ⟨-, hmid⟩ | ⟨-, hmid⟩
        · obtain ⟨first, rest, rfl, hfirst, -⟩ := List.map_eq_cons_iff.mp hmid
          exact ⟨first, rest, rfl, hfirst⟩
        · obtain ⟨first, rest, rfl, hfirst, -⟩ := List.map_eq_cons_iff.mp hmid
          exact ⟨first, rest, rfl, hfirst⟩
      have htotal : total (first :: rest) = total [b] := by
        have hsum : total (first :: rest) = (((first :: rest).map Blk.shape).map Prod.fst).sum := by
          rw [List.map_map]
          rfl
        rw [hsum]
        rcases hmid with ⟨hp, hmid⟩ | ⟨hp, hmid⟩ <;> rw [hmid]
        · simp [hp]
        · simp
          omega
      have hkeep : Owned env ⟨heap, w.live⟩ blocks' := by
        refine Owned.keep (show Owned env w (pre ++ [b] ++ post) by simpa using h)
          (List.Sublist.refl _)
          (fun l hl c hc hin => ?_) htotal hshape
        rcases hin with ⟨he, rfl⟩ | hin
        · exact h.not_free htiled hat hfree l hl he
        · exact absurd hin id
      have hnew := at_middle (firstBlock env) pre (rest ++ post) first
      rw [← List.cons_append, ← List.append_assoc] at hnew
      obtain ⟨c, hc, hs⟩ := hnew.of_shape hshape
      obtain ⟨hcsize, hcalloc⟩ := Prod.mk.inj (hs.trans hfirst)
      rw [if_neg (by omega)]
      refine hkeep.add hc hcalloc (by omega) fun l hl he => ?_
      exact h.not_free htiled hat hfree l hl (by omega)

-- The other allocations, when one block and perhaps a free one behind it are cut
-- anew.
theorem others {behind : List Blk} (h : Owned env w (pre ++ b :: (behind ++ post)))
    (hx : x = firstBlock env + total pre)
    (hbehind : behind = [] ∨ ∃ c, behind = [c] ∧ c.info.allocated = false)
    (htotal : total mid = total (b :: behind))
    (hshape : blocks'.map Blk.shape = (pre ++ mid ++ post).map Blk.shape) :
    Owned env ⟨heap, w.live.filter (·.ptr ≠ x + 8)⟩ blocks' := by
  refine Owned.keep (show Owned env w (pre ++ b :: behind ++ post) by simpa using h)
    List.filter_sublist
    (fun l hl c hc hin => ?_) htotal hshape
  rw [List.mem_filter, decide_eq_true_iff] at hl
  have hptr := (h.block l hl.1).1
  rw [← hx] at hin
  rcases hin with ⟨he, -⟩ | hin
  · omega
  · rcases hbehind with rfl | ⟨d, rfl, hd⟩
    · exact absurd hin id
    · rcases hin with ⟨-, rfl⟩ | hin
      · rw [hc] at hd
        cases hd
      · exact absurd hin id

theorem free (h : Owned env w (pre ++ b :: post)) (hx : x = firstBlock env + total pre)
    (hfrees : Frees pre b post blocks') :
    Owned env ⟨heap, w.live.filter (·.ptr ≠ x + 8)⟩ blocks' := by
  cases hfrees with
  | alone f hnext hf hshape =>
      obtain ⟨hsize, -⟩ := Prod.mk.inj hf
      exact Owned.others (show Owned env w (pre ++ b :: ([] ++ post)) from h) hx (Or.inl rfl)
        (show total [f] = total [b] by simp [hsize]) (by simpa using hshape)
  | merged f c rest hpost hc hf hshape =>
      subst hpost
      obtain ⟨hsize, -⟩ := Prod.mk.inj hf
      exact Owned.others (show Owned env w (pre ++ b :: ([c] ++ rest)) from h) hx
        (Or.inr ⟨c, rfl, hc⟩)
        (show total [f] = total [b, c] by simp [hsize]) (by simpa using hshape)

theorem realloc {p : Nat} (h : Owned env w (pre ++ b :: post)) (hx : x = firstBlock env + total pre)
    (halloc : b.info.allocated = true) (hsize : size + 8 ≤ p)
    (hres : Resizes pre b post p blocks') :
    Owned env ⟨heap, ⟨x + 8, size⟩ :: w.live.filter (·.ptr ≠ x + 8)⟩ blocks' := by
  have hnew (l : Live) (hl : l ∈ w.live.filter (·.ptr ≠ x + 8)) : l.ptr ≠ x + 8 := by
    simpa using (List.mem_filter.mp hl).2
  -- the block is the first one of what is put in its place
  have hfront {c : Blk} {rest : List Blk} (hc : c.shape = (p, true))
      (hshape : blocks'.map Blk.shape = (pre ++ c :: rest).map Blk.shape) :
      ∃ d, At (firstBlock env) blocks' x d ∧ d.info.allocated = true ∧ size + 8 ≤ d.size := by
    obtain ⟨d, hd, hs⟩ := (at_middle (firstBlock env) pre rest c).of_shape hshape
    obtain ⟨hdsize, hdalloc⟩ := Prod.mk.inj (hs.trans hc)
    exact ⟨d, hx ▸ hd, hdalloc, by omega⟩
  cases hres with
  | same hp hshape =>
      obtain ⟨d, hd, hdalloc, hdsize⟩ := hfront (Prod.ext hp.symm halloc) hshape
      have hothers : Owned env ⟨heap, _⟩ blocks' :=
        Owned.others (show Owned env w (pre ++ b :: ([] ++ post)) from h) hx (Or.inl rfl)
        (show total [b] = total [b] from rfl) (by simpa using hshape)
      exact hothers.add hd hdalloc hdsize hnew
  | alone a r hnext ha hr hp hshape =>
      obtain ⟨d, hd, hdalloc, hdsize⟩ := hfront ha hshape
      obtain ⟨hasize, -⟩ := Prod.mk.inj ha
      obtain ⟨hrsize, -⟩ := Prod.mk.inj hr
      have hothers : Owned env ⟨heap, _⟩ blocks' :=
        Owned.others (show Owned env w (pre ++ b :: ([] ++ post)) from h) hx (Or.inl rfl)
        (show total [a, r] = total [b] by simp [hasize, hrsize]; omega) (by simpa using hshape)
      exact hothers.add hd hdalloc hdsize hnew
  | merged a r c rest hpost hc ha hr hp hshape =>
      subst hpost
      obtain ⟨d, hd, hdalloc, hdsize⟩ := hfront ha hshape
      obtain ⟨hasize, -⟩ := Prod.mk.inj ha
      obtain ⟨hrsize, -⟩ := Prod.mk.inj hr
      have hothers : Owned env ⟨heap, _⟩ blocks' :=
        Owned.others (show Owned env w (pre ++ b :: ([c] ++ rest)) from h) hx (Or.inr ⟨c, rfl, hc⟩)
        (show total [a, r] = total [b, c] by simp [hasize, hrsize]; omega) (by simpa using hshape)
      exact hothers.add hd hdalloc hdsize hnew

end Owned

end CSE320.Sfmm
