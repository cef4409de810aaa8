import CSE320.Sfmm.Release

namespace CSE320.Sfmm

variable {env : Sfutil} {s : State} {pre post : List Blk} {epi : Info} {lists : List SizeList}
  {b : Blk} {x p : Nat}

theorem ofInt_blocks (n : Nat) : BitVec.ofInt 28 ((n : Int) / 16) = Info.blocks n := by
  rw [Info.blocks, ← BitVec.ofInt_natCast]
  rfl

-- The tags that shrink_block writes inside the block.
def shrinkTags (s : State) (x size oldSize paddSize : Nat) : State :=
  let s := s.setInfo (x + paddSize) fun _ => restInfo (oldSize - paddSize)
  let s := s.setInfo (x + oldSize - 8) fun _ => restInfo (oldSize - paddSize)
  let s := s.setInfo x (taken size paddSize)
  s.setInfo (x + paddSize - 8) fun _ => ⟨true, true, 0, Info.blocks paddSize, BitVec.ofNat 32 size⟩

theorem shrinkBlock_eq {oldSize : Nat} (size : Nat) (hle : p ≤ oldSize) :
    shrinkBlock s x size oldSize p =
      ((shrinkTags s x size oldSize p).setInfo (x + oldSize) (Info.setPrev false)).setInfo
        (x + oldSize + (((shrinkTags s x size oldSize p).setInfo (x + oldSize)
          (Info.setPrev false)).info (x + oldSize)).size - 8) (Info.setPrev false) := by
  have hrest : (x + (p : Int)).toNat = x + p := by omega
  have hfoot : (x + (oldSize : Int) - 8).toNat = x + oldSize - 8 := by omega
  have hpart : (x + (p : Int) - 8).toNat = x + p - 8 := by omega
  have hnext : (x + (oldSize : Int)).toNat = x + oldSize := by omega
  rw [shrinkBlock, hrest, hfoot, hpart, hnext, ← Int.ofNat_sub hle, ofInt_blocks, ofInt_blocks]
  rfl

-- The two parts of a block that is cut.
def keptBlk (size p : Nat) (b : Blk) : Blk := ⟨taken size p b.info, b.foot⟩

def plainRest (n : Nat) : Blk := ⟨restInfo n, restInfo n⟩

theorem shrinkTags_spec (size : Nat) (hdoc : Documented env)
    (h : Shows env s (pre ++ b :: post) epi lists []) (hx : x = firstBlock env + total pre)
    (halloc : b.info.allocated = true) (hp : 32 ≤ p) (hmod : p % 16 = 0) (hle : p + 32 ≤ b.size) :
    Shows env (shrinkTags s x size b.size p)
      (pre ++ keptBlk size p b :: plainRest (b.size - p) :: post)
      epi lists [x + p] := by
  have hat := at_middle (firstBlock env) pre post b
  rw [← hx] at hat
  have hb := h.tiled.bounds hat
  have hbmod : b.size % 16 = 0 := Info.size_mod b.info
  refine h.cut (shrinkTags s x size b.size p) p (keptBlk size p b)
    (plainRest (b.size - p)) hdoc hx (by simp) (Or.inr halloc) rfl rfl
    (fun w hw => ?_) ?_ ?_ ?_ (taken_size size hmod (by omega) _)
      (restInfo_size (by omega) (by omega)) rfl hp hle
  · simp (disch := omega) only [shrinkTags, State.mem_setInfo_ne]
  · simp (disch := omega) only [shrinkTags, State.info_setInfo_ne, State.info_setInfo_self]
    rw [h.tiled.header x b hat]
    rfl
  · simp (disch := omega) only [shrinkTags, State.info_setInfo_ne, State.info_setInfo_self]
    rfl
  · simp (disch := omega) only [shrinkTags, State.info_setInfo_ne, State.info_setInfo_self]
    rfl

-- The footer of a rest at the end of the heap gets a wrong bit: the word that is
-- meant to be the footer of the next block is this footer.
def restBlk (n : Nat) : List Blk → Blk
  | [] => ⟨restInfo n, (restInfo n).setPrev false⟩
  | _ :: _ => plainRest n

theorem shrinkBlock_spec (size : Nat) (hdoc : Documented env)
    (h : Shows env s (pre ++ b :: post) epi lists []) (hx : x = firstBlock env + total pre)
    (halloc : b.info.allocated = true) (hp : 32 ≤ p) (hmod : p % 16 = 0) (hle : p + 32 ≤ b.size) :
    Shows env (shrinkBlock s x size b.size p)
      (pre ++ keptBlk size p b :: restBlk (b.size - p) post :: markNext false post)
      (markEpilogue false post epi) lists [x + p] := by
  have hat := at_middle (firstBlock env) pre post b
  rw [← hx] at hat
  have hb := h.tiled.bounds hat
  have hbmod : b.size % 16 = 0 := Info.size_mod b.info
  have htags := shrinkTags_spec size hdoc h hx halloc hp hmod hle
  rw [shrinkBlock_eq size (show p ≤ b.size by omega), State.info_setInfo_self]
  have hsizes : (keptBlk size p b).size = p ∧
      (plainRest (b.size - p)).size = b.size - p :=
    ⟨taken_size size hmod (by omega) _, restInfo_size (by omega) (by omega)⟩
  have hplace : firstBlock env + total (pre ++ [keptBlk size p b,
      plainRest (b.size - p)]) = x + b.size := by
    simp only [total_append, total_cons, total_nil, hsizes]
    omega
  have htags' : Shows env (shrinkTags s x size b.size p) ((pre ++ [keptBlk size p b,
      plainRest (b.size - p)]) ++ post) epi lists [x + p] := by
    rw [List.append_assoc]
    exact htags
  have hnext := htags'.tiled.next_eq.2
  rw [hplace] at hnext
  rw [hnext]
  cases post with
  | nil =>
      have hhead := htags'.setNextHeader hdoc false
      rw [hplace, markHeader, List.append_nil, List.append_cons] at hhead
      have hrest := at_middle (firstBlock env) (pre ++ [keptBlk size p b]) []
        (plainRest (b.size - p))
      have hword : x + b.size + ((nextInfo [] epi).setPrev false).size - 8 =
          firstBlock env + total (pre ++ [keptBlk size p b]) +
            (plainRest (b.size - p)).size - 8 := by
        have hepi : ((nextInfo [] epi).setPrev false).size = 0 := h.closed.2
        rw [hepi]
        simp only [total_append, total_cons, total_nil, hsizes]
        omega
      have hshape : (pre ++ keptBlk size p b :: restBlk (b.size - p) [] :: markNext false []).map
          Blk.shape = ((pre ++ [keptBlk size p b]) ++
            [plainRest (b.size - p)]).map Blk.shape := by
        rw [List.append_assoc, List.map_append, List.map_append]
        rfl
      rw [hword]
      refine hhead.reshape ?_
        (hhead.listed.setInfo (hhead.no_link hdoc hrest (Or.inr (Or.inl rfl)))) hshape hhead.closed
      have hfoot := hhead.tiled.setFooter (Info.setPrev false)
      rw [List.append_assoc] at hfoot
      exact hfoot
  | cons c rest =>
      have hc := h.tiled.sized c (by simp)
      have hboth := htags'.setNext hdoc false
      have hfoot : footOf (shrinkTags s x size b.size p) (x + b.size) =
          x + b.size + c.size - 8 := by
        rw [footOf, hnext, nextInfo]
        exact if_pos (show c.size ≠ 0 by omega)
      rw [hplace, hfoot, List.append_assoc] at hboth
      exact hboth

variable (env s)

-- The calls of sf_realloc that keep the heap safe: the pointer is refused, the
-- size stays the same, or at least 32 bytes are cut off and go to a list with room.
def ReallocOk (ptr size : Nat) : Prop :=
  let i := s.info (ptr - 8)
  let next := s.info (ptr - 8 + i.size)
  checkPtr env s ptr ≠ .valid ∨ size ≤ 2 ^ 64 - 24 ∧ (padding size = i.size ∨
    padding size + 32 ≤ i.size ∧ Roomy env s (i.size - padding size) ∧
      (next.allocated = false → Roomy env s (i.size - padding size + next.size)))

instance (ptr size : Nat) : Decidable (ReallocOk env s ptr size) :=
  inferInstanceAs (Decidable (_ ∨ _ ∧ (_ ∨ _ ∧ _ ∧ (_ → _))))

-- The block that is cut is not the last one of the heap.
def CutInside (ptr size : Nat) : Prop :=
  let i := s.info (ptr - 8)
  checkPtr env s ptr ≠ .valid ∨ padding size = i.size ∨ ptr - 8 + i.size ≠ s.memEnd - 8

instance (ptr size : Nat) : Decidable (CutInside env s ptr size) :=
  inferInstanceAs (Decidable (_ ∨ _ ∨ _))

-- What sf_realloc does to the blocks, up to the bits that do not count for their
-- shape.
inductive Resizes (pre : List Blk) (b : Blk) (post : List Blk) (p : Nat) (blocks' : List Blk) : Prop
  | same (hp : p = b.size) (hshape : blocks'.map Blk.shape = (pre ++ b :: post).map Blk.shape)
  | alone (a r : Blk) (hnext : ∀ c ∈ post.head?, c.info.allocated = true) (ha : a.shape = (p, true))
      (hr : r.shape = (b.size - p, false)) (hp : p + 32 ≤ b.size)
      (hshape : blocks'.map Blk.shape = (pre ++ a :: r :: post).map Blk.shape)
  | merged (a r c : Blk) (rest : List Blk) (hpost : post = c :: rest)
      (hc : c.info.allocated = false)
      (ha : a.shape = (p, true)) (hr : r.shape = (b.size - p + c.size, false))
        (hp : p + 32 ≤ b.size)
      (hshape : blocks'.map Blk.shape = (pre ++ a :: r :: rest).map Blk.shape)

variable {env s} {size : Nat}

-- The block at x gets a new size, and the other allocated blocks are kept.
structure Recuts (env : Sfutil) (size p x : Nat) (blocks blocks' : List Blk) : Prop where
  keeps : KeepsLabels env x blocks blocks'
  resized : ∃ c, At (firstBlock env) blocks' x c ∧ c.label = (p, some (BitVec.ofNat 32 size))

theorem recuts_of (a : Blk) (behind rest : List Blk) {blocks' : List Blk}
    (hx : x = firstBlock env + total pre) (hbehind : ∀ c ∈ behind, c.info.allocated = false)
    (hlabel : blocks'.map Blk.label = (pre ++ (a :: rest) ++ post).map Blk.label)
    (htotal : total (a :: rest) = total (b :: behind))
    (ha : a.label = (p, some (BitVec.ofNat 32 size))) :
    Recuts env size p x (pre ++ b :: (behind ++ post)) blocks' := by
  refine ⟨?_, ?_⟩
  · have hkeep : KeepsLabels env x (pre ++ (b :: behind) ++ post) blocks' := by
      refine keepsLabels_of _ hlabel htotal fun y c hc halloc => ?_
      rcases hc with ⟨rfl, -⟩ | hc
      · exact hx.symm
      · rw [hbehind c hc.mem] at halloc
        cases halloc
    rwa [List.append_assoc] at hkeep
  · rw [List.append_assoc] at hlabel
    obtain ⟨c, hc, hs⟩ := label_at hlabel hx
    exact ⟨c, hc, hs.trans ha⟩

theorem toInt_eq {n : Nat} (h : n < 2 ^ 31) : toInt n = n := by
  rw [toInt]
  omega

-- Refused pointers.
theorem sfRealloc_invalid (size : Nat) {ptr : Nat} (hcheck : checkPtr env s ptr ≠ .valid) :
    sfRealloc env s ptr size = .ok (0, { s with errno := .einval }) ∨
      sfRealloc env s ptr size = .error .abort := by
  rw [sfRealloc, validPtrRealloc]
  cases hptr : checkPtr env s ptr with
  | valid => exact absurd hptr hcheck
  | invalid => exact Or.inl rfl
  | oversized => exact Or.inr rfl

theorem coherent_shrunk {c : Blk} {rest : List Blk}
    (h : Coherent true (pre ++ b :: c :: rest) epi) (n : Nat) :
    Coherent true (pre ++ keptBlk size p b :: plainRest n :: c.setPrev false :: rest) epi := by
  obtain ⟨hprev, hepi, hfeet⟩ := h
  obtain ⟨hpre, hb, -, hrest⟩ := prevIn_append.mp hprev
  refine ⟨prevIn_append.mpr ⟨hpre, hb, rfl, rfl, hrest⟩, ?_, fun d hd => ?_⟩
  · rw [allocEnd_append] at hepi ⊢
    exact hepi
  · simp only [List.mem_append, List.mem_cons] at hd
    rcases hd with hd | rfl | rfl | rfl | hd
    · exact hfeet d (by simp [hd])
    · exact nofun
    · exact fun _ => ⟨rfl, rfl, rfl⟩
    · intro hfree
      have hc := hfeet c (by simp) hfree
      exact ⟨hc.1, hc.2.1, rfl⟩
    · exact hfeet d (by simp [hd])

theorem sfRealloc_same (hdoc : Documented env) (h : Shows env s (pre ++ b :: post) epi lists [])
    (hx : x = firstBlock env + total pre) (halloc : b.info.allocated = true)
    (hvalid : checkPtr env s (x + 8) = .valid) (hsize : padding size = b.size) :
    ∃ s' b', sfRealloc env s (x + 8) size = .ok (x + 8, s') ∧
      Shows env s' (pre ++ b' :: post) epi lists [] ∧
        b'.label = (b.size, some (BitVec.ofNat 32 size)) ∧
      (Coherent true (pre ++ b :: post) epi → Coherent true (pre ++ b' :: post) epi) ∧
      ∀ w, w ≠ x → s'.mem w = s.mem w := by
  have hat := at_middle (firstBlock env) pre post b
  rw [← hx] at hat
  have hb := h.tiled.bounds hat
  have hbsize : b.info.size = b.size := rfl
  have htiled := h.tiled.setHeader (f :=
    fun i => { i with requestedSize := BitVec.ofNat 32 size }) rfl id
  rw [← hx] at htiled
  have hshows := h.reshape htiled (h.listed.setInfo (h.no_link hdoc hat (Or.inl rfl)))
    (by rw [List.map_append, List.map_append]; rfl) h.closed
  refine ⟨_, { b with info := { b.info with requestedSize := BitVec.ofNat 32 size } }, ?_, hshows,
    label_allocated halloc, fun hc => ⟨?_, ?_, fun d hd => ?_⟩, fun w hw => s.mem_setInfo_ne _ hw⟩
  · rw [sfRealloc, validPtrRealloc, hvalid]
    simp only [Lib.ok_bind, not_true_eq_false, if_false, Nat.add_sub_cancel, h.tiled.header x b hat,
      hsize, hbsize, toInt_eq (show b.size < 2 ^ 31 by omega), gt_iff_lt, Lib.pure_eq_ok]
    rw [if_neg (by omega), if_neg (by omega)]
  · obtain ⟨hpre, hb', hpost⟩ := prevIn_append.mp hc.prev
    exact prevIn_append.mpr ⟨hpre, hb', hpost⟩
  · rw [hc.epilogue, allocEnd_append, allocEnd_append]
    rfl
  · rw [List.mem_append, List.mem_cons] at hd
    rcases hd with hd | rfl | hd
    · exact hc.feet d (by simp [hd])
    · intro hfree
      simp only [halloc, Bool.true_eq_false] at hfree
    · exact hc.feet d (by simp [hd])

theorem sfRealloc_shrink_eq (h : Tiled env s (pre ++ b :: post) epi)
    (hx : x = firstBlock env + total pre) (hvalid : checkPtr env s (x + 8) = .valid)
    (hp : padding size = p) (hlt : p < b.size) :
    sfRealloc env s (x + 8) size =
      (insertSized env (shrinkBlock s x size b.size p) (b.size - p) (x + p)
        ((shrinkBlock s x size b.size p).nodeNext (env.slot 0)) State.linkFront >>= fun s₂ =>
        if (s₂.info (x + b.size)).allocated = false ∧ (s₂.info (x + b.size)).size ≠ 0 then
          coalesce env s₂ (x + p) (x + b.size)
            (x + b.size + ((shrinkBlock s x size b.size p).info (x + b.size)).size - 8) >>=
              fun s₃ =>
            .ok (x + 8, s₃)
        else .ok (x + 8, s₂)) := by
  have hat := at_middle (firstBlock env) pre post b
  rw [← hx] at hat
  have hb := h.bounds hat
  have hbsize : b.info.size = b.size := rfl
  have hrest : (x + (p : Int)).toNat = x + p := by omega
  have hnext : (x + (b.size : Int)).toNat = x + b.size := by omega
  have hdiff : ((b.size : Int) - p).toNat = b.size - p := by omega
  rw [sfRealloc, validPtrRealloc, hvalid]
  simp only [Lib.ok_bind, not_true_eq_false, if_false, Nat.add_sub_cancel, h.header x b hat,
    hp, hbsize, toInt_eq (show p < 2 ^ 31 by omega), gt_iff_lt, Lib.pure_eq_ok]
  rw [if_neg (by omega), if_pos (by omega), hrest, hnext, hdiff]

theorem sfRealloc_shrink (hdoc : Documented env) (h : Shows env s (pre ++ b :: post) epi lists [])
    (hx : x = firstBlock env + total pre) (halloc : b.info.allocated = true)
    (hvalid : checkPtr env s (x + 8) = .valid) (hp : padding size = p) (hmin : 32 ≤ p)
    (hmod : p % 16 = 0) (hle : p + 32 ≤ b.size) (hroom : Roomy env s (b.size - p))
    (hroomNext : (s.info (x + b.size)).allocated = false →
      Roomy env s (b.size - p + (s.info (x + b.size)).size)) :
    ∃ s' blocks' epi' lists', sfRealloc env s (x + 8) size = .ok (x + 8, s') ∧
      Shows env s' blocks' epi' lists' [] ∧ Resizes pre b post p blocks' ∧
      (Sorted lists ↔ Sorted lists') ∧
      (post ≠ [] → Coherent true (pre ++ b :: post) epi → Coherent true blocks' epi') ∧
      Recuts env size p x (pre ++ b :: post) blocks' ∧
      SamePayloads env (pre ++ keptBlk size p b :: restBlk (b.size - p) post :: markNext false post)
        (shrinkBlock s x size b.size p) s' := by
  have hat := at_middle (firstBlock env) pre post b
  rw [← hx] at hat
  have hb := h.tiled.bounds hat
  have hbmod : b.size % 16 = 0 := Info.size_mod b.info
  have h₁ := shrinkBlock_spec size hdoc h hx halloc hmin hmod hle
  have hkept : (keptBlk size p b).size = p := taken_size size hmod (by omega) _
  have hrestSize : (restInfo (b.size - p)).size = b.size - p := restInfo_size (by omega) (by omega)
  have hrest : (restBlk (b.size - p) post).shape = (b.size - p, false) := by
    have hpair : (restBlk (b.size - p) post).shape = ((restInfo (b.size - p)).size, false) := by
      cases post with
      | nil => rfl
      | cons c rest => rfl
    rw [hpair, hrestSize]
  have hkeptLabel : (keptBlk size p b).label = (p, some (BitVec.ofNat 32 size)) := by
    rw [label_allocated rfl, hkept]
    rfl
  have hkeptShape := shape_of_given hkeptLabel
  obtain ⟨hrestSize', hrestFree⟩ := Prod.mk.inj hrest
  have hplace : x + p = firstBlock env + total (pre ++ [keptBlk size p b]) := by
    simp only [total_append, total_cons, total_nil, hkept]
    omega
  rw [List.append_cons] at h₁
  have hat₁ := at_middle (firstBlock env) (pre ++ [keptBlk size p b]) (markNext false post)
    (restBlk (b.size - p) post)
  rw [← hplace] at hat₁
  obtain ⟨s₂, lists₂, hins, h₂, hinserted, hsame⟩ := h₁.insert hdoc (linksNew_linkFront hdoc)
    ⟨_, hat₁, hrestFree, hrestSize'⟩ List.not_mem_nil (h.roomy hdoc (by omega) hroom)
    ((shrinkBlock s x size b.size p).nodeNext (env.slot 0))
  have hsame' :
      SamePayloads env (pre ++ keptBlk size p b :: restBlk (b.size - p) post :: markNext false post)
      (shrinkBlock s x size b.size p) s₂ := by simpa using hsame
  have hcut {blocks' : List Blk} (heq : blocks' = pre ++ [keptBlk size p b] ++
      restBlk (b.size - p) post :: markNext false post) : Recuts env size p x (pre ++ b :: post)
        blocks' := by
    refine recuts_of (keptBlk size p b) [] [restBlk (b.size - p) post] hx (by simp)
      (by simp [heq, label_markNext]) ?_ hkeptLabel
    simp only [total_cons, total_nil, hkept, hrestSize']
    omega
  rw [sfRealloc_shrink_eq h.tiled hx hvalid hp (by omega), hins, Lib.ok_bind]
  have hbehind (t : State) (i : Info) (ht : Tiled env t (pre ++ [keptBlk size p b] ++
      restBlk (b.size - p) post :: markNext false post) i) :
      t.info (x + b.size) = nextInfo (markNext false post) i := by
    have hinfo := ht.info_behind
    rwa [← hplace, hrestSize', show x + p + (b.size - p) = x + b.size by omega] at hinfo
  have hnext₁ := hbehind _ _ h₁.tiled
  have hnext₂ := hbehind _ _ h₂.tiled
  have hnext : s.info (x + b.size) = nextInfo post epi := hx ▸ h.tiled.info_behind
  cases post with
  | nil =>
      have hepi : (s₂.info (x + b.size)).allocated = true := by
        rw [hnext₂]
        exact h₂.closed.1
      simp only [hepi, Bool.true_eq_false, false_and, if_false]
      refine ⟨s₂, _, _, lists₂, rfl, h₂, ?_, hinserted.sorted, fun hne => absurd rfl hne,
        hcut rfl, hsame'⟩
      refine .alone (keptBlk size p b) (restBlk (b.size - p) []) (by simp) hkeptShape hrest hle ?_
      rw [List.append_assoc]
      rfl
  | cons c rest =>
      rw [nextInfo] at hnext
      have hcoh (hc : Coherent true (pre ++ b :: c :: rest) epi) :
          Coherent true (pre ++ [keptBlk size p b] ++ restBlk (b.size - p) (c :: rest) ::
            markNext false (c :: rest)) (markEpilogue false (c :: rest) epi) := by
        rw [List.append_assoc]
        exact coherent_shrunk hc (b.size - p)
      have hnextAlloc : (s₂.info (x + b.size)).allocated = c.info.allocated := by rw [hnext₂]; rfl
      by_cases hc : c.info.allocated = true
      · simp only [hnextAlloc, hc, Bool.true_eq_false, false_and, if_false]
        refine ⟨s₂, _, _, lists₂, rfl, h₂, ?_, hinserted.sorted, fun _ => hcoh, hcut rfl, hsame'⟩
        refine .alone (keptBlk size p b) (restBlk (b.size - p) (c :: rest)) (by simp [hc])
          hkeptShape hrest hle ?_
        simp [shape_markNext]
      · have hcfree : c.info.allocated = false := by simpa using hc
        have hcat : At (firstBlock env) (pre ++ b :: c :: rest) (x + b.size) c :=
          hx ▸ at_second _ pre rest b c
        have hcb := h.tiled.bounds hcat
        have hcsize₁ : ((shrinkBlock s x size b.size p).info (x + b.size)).size = c.size := by
          rw [hnext₁]; rfl
        have hcsize₂ : (s₂.info (x + b.size)).size = c.size := by rw [hnext₂]; rfl
        rw [hnext] at hroomNext
        have hroom' :=
          (h.roomy hdoc (show 0 < b.size - p + c.size by omega) (hroomNext hcfree)).of_above
          (hinserted.above _ (by omega))
        obtain ⟨s₃, lists₃, hmerge, h₃, hsorted, hmergeSame⟩ :=
          coalesce_spec hdoc h₂ hplace hrestFree hcfree
          (hrestSize'.symm ▸ hroom')
        rw [hrestSize', show x + p + (b.size - p) = x + b.size by omega] at hmerge
        have hcne : c.size ≠ 0 := by omega
        simp only [hnextAlloc, hcfree, hcsize₂, hcsize₁, ne_eq, hcne, not_false_eq_true,
          and_self, if_true]
        have hmerged : (merged (restBlk (b.size - p) (c :: rest)) (c.setPrev false)).size =
            b.size - p + c.size := by
          have hadd : (restBlk (b.size - p) (c :: rest)).size + (c.setPrev false).size =
              b.size - p + c.size := by
            rw [hrestSize']
            rfl
          rw [merged_size (by omega), hadd]
        refine ⟨s₃, _, _, lists₃, ?_, h₃, ?_, hinserted.sorted.trans hsorted,
          fun _ hs => coherent_merged (hcoh hs) hrestFree hcfree, ?_,
            hsame'.trans (by simpa [markNext] using hmergeSame)⟩
        · have hfeet : (c.setPrev false).size = c.size := rfl
          rw [hfeet] at hmerge
          rw [hmerge]
          rfl
        · refine .merged (keptBlk size p b) _ c rest rfl hcfree hkeptShape
            (Prod.ext hmerged rfl) hle ?_
          simp [shape_markHeader]
        · refine recuts_of (keptBlk size p b) [c]
            [merged (restBlk (b.size - p) (c :: rest)) (c.setPrev false)] hx
            (by simp [hcfree]) (by simp [label_markHeader]) ?_ hkeptLabel
          simp only [total_cons, total_nil, hkept, hmerged]
          omega

end CSE320.Sfmm
