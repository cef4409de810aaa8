import CSE320.Sfmm.Owned

namespace CSE320.Sfmm

variable (env : Sfutil)

-- The calls under which the heap stays safe, in the state in which they are made.
def Good (w : World) (op : Op) : Prop :=
  Allowed w op ∧ match op with
    | .malloc size => MallocOk env w.heap size
    | .free ptr => FreeOk env w.heap ptr
    | .realloc ptr size => ReallocOk env w.heap ptr size
    | .store _ _ _ => True

instance (w : World) (op : Op) : Decidable (Good env w op) :=
  match op with
  | .malloc size =>
      inferInstanceAs (Decidable (Allowed w (.malloc size) ∧ MallocOk env w.heap size))
  | .free ptr => inferInstanceAs (Decidable (Allowed w (.free ptr) ∧ FreeOk env w.heap ptr))
  | .realloc ptr size =>
    inferInstanceAs (Decidable (Allowed w (.realloc ptr size) ∧ ReallocOk env w.heap ptr size))
  | .store ptr offset byte =>
      inferInstanceAs (Decidable (Allowed w (.store ptr offset byte) ∧ True))

-- The calls that also leave the boundary tags right.
def TagsOk (w : World) : Op → Prop
  | .malloc size => size = 0 ∨
    if env.memStart = w.heap.memEnd then ¬Grows env w.heap ∨ padding size + 32 ≤ freeBlockSize
    else ExactAtEnd env w.heap size
  | .realloc ptr size => CutInside env w.heap ptr size
  | _ => True

-- The calls that add no size to the end of the list of sizes.
def SizesOk (w : World) : Op → Prop
  | .malloc size => size = 0 ∨
    if env.memStart = w.heap.memEnd then ¬Grows env w.heap ∨ freeBlockSize ≤ padding size
    else RestKnown env w.heap size
  | _ => True

-- The block in front of a block that is freed is not free.
def PrevTaken (w : World) : Op → Prop
  | .free ptr => ∀ q, FreeBlock env w.heap q → q + (w.heap.info q).size ≠ ptr - 8
  | _ => True

-- No two adjacent blocks are free.
def Apart (bits : List Bool) : Prop := bits.IsChain fun p q => p = true ∨ q = true

def NoPair (blocks : List Blk) : Prop := Apart (blocks.map fun b => b.info.allocated)

-- What a step does to a heap that is there.
structure Moves (w w' : World) (op : Op) (blocks : List Blk) (epi : Info) (lists : List SizeList)
    (blocks' : List Blk) (epi' : Info) (lists' : List SizeList) : Prop where
  shows : Shows env w'.heap blocks' epi' lists' []
  owned : Owned env w' blocks'
  coherent : TagsOk env w op → Coherent true blocks epi → Coherent true blocks' epi'
  sorted : SizesOk env w op ∧ Sorted lists ↔ Sorted lists'
  noPair : PrevTaken env w op → NoPair blocks → NoPair blocks'

variable {env} {s : State} {blocks blocks' pre post : List Blk} {epi : Info}
  {lists : List SizeList} {w : World} {x p ptr : Nat} {b : Blk}

theorem apart_middle {first second : List Bool} {u : Bool} :
    Apart (first ++ u :: second) ↔ Apart first ∧ Apart second ∧
      (u = true ∨ (∀ c ∈ first.getLast?, c = true) ∧ ∀ c ∈ second.head?, c = true) := by
  unfold Apart
  rw [List.isChain_append, List.isChain_cons]
  simp only [List.head?_cons, Option.mem_def, Option.some.injEq, forall_eq']
  cases u
  · simp only [Bool.false_eq_true, false_or, or_false]
    tauto
  · simp

theorem noPair_of_shape (hshape : blocks'.map Blk.shape = blocks.map Blk.shape) :
    NoPair blocks' ↔ NoPair blocks := by
  have hbits : (blocks'.map fun b => b.info.allocated) = blocks.map fun b => b.info.allocated := by
    have h := congrArg (List.map Prod.snd) hshape
    simpa [List.map_map, Function.comp_def, Blk.shape] using h
  rw [NoPair, NoPair, hbits]

theorem noPair_middle : NoPair (pre ++ b :: post) ↔ NoPair pre ∧ NoPair post ∧
    (b.info.allocated = true ∨ (∀ c ∈ pre.getLast?, c.info.allocated = true) ∧
      ∀ c ∈ post.head?, c.info.allocated = true) := by
  unfold NoPair
  rw [List.map_append, List.map_cons, apart_middle]
  simp [List.getLast?_map, List.head?_map]

theorem noPair_cons {r : Blk} (h : NoPair post)
    (hnext : ∀ c ∈ post.head?, c.info.allocated = true) : NoPair (r :: post) := by
  have hmid : NoPair ([] ++ r :: post) := noPair_middle.mpr ⟨.nil, h, Or.inr ⟨by simp, hnext⟩⟩
  exact hmid

theorem noPair_handsOut (hout : HandsOut env p blocks ptr blocks') (h : NoPair blocks) :
    NoPair blocks' := by
  cases hout with
  | failed => exact h
  | @given pre mid post blocks' b hblocks hfree hshape hmid =>
      subst hblocks
      obtain ⟨hpre, hpost, hcases⟩ := noPair_middle.mp h
      obtain hfull | ⟨-, hnext⟩ := hcases
      · rw [hfree] at hfull
        cases hfull
      · rw [noPair_of_shape hshape, List.append_assoc]
        rcases hmid with ⟨-, hmid⟩ | ⟨-, hmid⟩
        · obtain ⟨c, rest, rfl, hc, hrest⟩ := List.map_eq_cons_iff.mp hmid
          obtain rfl := List.map_eq_nil_iff.mp hrest
          exact noPair_middle.mpr ⟨hpre, hpost, Or.inl (Prod.mk.inj hc).2⟩
        · obtain ⟨c, rest, rfl, hc, hrest⟩ := List.map_eq_cons_iff.mp hmid
          obtain ⟨r, rest, rfl, hr, hrest⟩ := List.map_eq_cons_iff.mp hrest
          obtain rfl := List.map_eq_nil_iff.mp hrest
          exact noPair_middle.mpr ⟨hpre, noPair_cons hpost hnext, Or.inl (Prod.mk.inj hc).2⟩

theorem noPair_frees (hfrees : Frees pre b post blocks')
    (hprev : ∀ c ∈ pre.getLast?, c.info.allocated = true) (h : NoPair (pre ++ b :: post)) :
    NoPair blocks' := by
  obtain ⟨hpre, hpost, -⟩ := noPair_middle.mp h
  cases hfrees with
  | alone f hnext hf hshape =>
      rw [noPair_of_shape hshape]
      exact noPair_middle.mpr ⟨hpre, hpost, Or.inr ⟨hprev, hnext⟩⟩
  | merged f c rest hp hc hf hshape =>
      subst hp
      rw [noPair_of_shape hshape]
      obtain ⟨-, hrest, hcases⟩ := noPair_middle.mp (show NoPair ([] ++ c :: rest) from hpost)
      obtain hfull | ⟨-, hnext⟩ := hcases
      · rw [hc] at hfull
        cases hfull
      · exact noPair_middle.mpr ⟨hpre, hrest, Or.inr ⟨hprev, hnext⟩⟩

theorem noPair_resizes (hres : Resizes pre b post p blocks')
    (h : NoPair (pre ++ b :: post)) : NoPair blocks' := by
  obtain ⟨hpre, hpost, -⟩ := noPair_middle.mp h
  cases hres with
  | same hp hshape => rwa [noPair_of_shape hshape]
  | alone a r hnext ha hr hp hshape =>
      rw [noPair_of_shape hshape]
      exact noPair_middle.mpr ⟨hpre, noPair_cons hpost hnext, Or.inl (Prod.mk.inj ha).2⟩
  | merged a r c rest hpost' hc ha hr hp hshape =>
      subst hpost'
      rw [noPair_of_shape hshape]
      obtain ⟨-, hrest, hcases⟩ := noPair_middle.mp (show NoPair ([] ++ c :: rest) from hpost)
      obtain hfull | ⟨-, hnext⟩ := hcases
      · rw [hc] at hfull
        cases hfull
      · exact noPair_middle.mpr ⟨hpre, noPair_cons hrest hnext, Or.inl (Prod.mk.inj ha).2⟩

theorem exec_malloc {size : Nat} {s' : State} (h : sfMalloc env w.heap size = .ok (ptr, s')) :
    exec env w (.malloc size) = .ok ⟨s', if ptr = 0 then w.live else ⟨ptr, size⟩ :: w.live⟩ := by
  rw [exec, h]
  rfl

theorem exec_free {s' : State} (h : sfFree env w.heap ptr = .ok s') :
    exec env w (.free ptr) = .ok ⟨s', w.live.filter (·.ptr ≠ ptr)⟩ := by
  rw [exec, h]
  rfl

theorem exec_realloc {size ptr' : Nat} {s' : State}
    (h : sfRealloc env w.heap ptr size = .ok (ptr', s')) :
    exec env w (.realloc ptr size) =
      .ok ⟨s', if ptr' = 0 then w.live else ⟨ptr', size⟩ :: w.live.filter (·.ptr ≠ ptr)⟩ := by
  rw [exec, h]
  rfl

-- A store changes one word of the payload.
theorem Shows.store {v word : Nat} (hdoc : Documented env) (h : Shows env s blocks epi lists [])
    (hx : At (firstBlock env) blocks x b) (halloc : b.info.allocated = true)
    (hin : x < word ∧ word < x + b.size) : Shows env (s.write word v) blocks epi lists [] := by
  have htag : ¬Tagged env blocks word :=
    h.tiled.not_tagged hx hin fun hfree => by rw [halloc] at hfree; cases hfree
  have hlink : ¬LinkWord env s lists word :=
    h.no_link hdoc hx (Or.inr (Or.inr ⟨hin.1.le, hin.2, h.not_on_allocated hx halloc⟩))
  refine h.reshape (h.tiled.congr rfl fun u hu => s.mem_write_ne ?_) (h.listed.write hlink)
    rfl h.closed
  rintro rfl
  exact htag hu

-- The first call on an empty heap: the heap stays empty, or it is there.
theorem exec_first {op : Op} (hdoc : Documented env) (hend : w.heap.memEnd = env.memStart)
    (hlisted : Listed env w.heap []) (hlive : w.live = []) (hgood : Good env w op) :
    ∃ w', exec env w op = .ok w' ∧
      ((w'.heap.memEnd = env.memStart ∧ Listed env w'.heap [] ∧ w'.live = [] ∧ SizesOk env w op) ∨
        ∃ blocks' epi' lists', Shows env w'.heap blocks' epi' lists' [] ∧ Owned env w' blocks' ∧
          NoPair blocks' ∧ (TagsOk env w op → Coherent true blocks' epi') ∧
          (SizesOk env w op ↔ Sorted lists')) := by
  obtain ⟨hallowed, hok⟩ := hgood
  cases op with
  | malloc size =>
      simp only [TagsOk, SizesOk, if_pos hend.symm]
      by_cases hzero : size = 0
      · have hnull : sfMalloc env w.heap size = .ok (0, w.heap) := by rw [sfMalloc, if_pos hzero]
        exact ⟨_, exec_malloc hnull, Or.inl ⟨hend, hlisted, hlive, Or.inl hzero⟩⟩
      · obtain ⟨hsize, hfirst⟩ := hok.resolve_left hzero
        rw [if_pos hend.symm] at hfirst
        obtain ⟨ptr, s', heq, hcases⟩ := sfMalloc_first hdoc hend hlisted hzero hsize hfirst
        refine ⟨_, exec_malloc heq, ?_⟩
        rcases hcases with ⟨hstays, rfl, hend', hlisted'⟩ |
          ⟨hgrows, blocks', epi', lists', hshows, hout, hsizes, hcoh, -⟩
        · exact Or.inl ⟨hend', hlisted', hlive, Or.inr (Or.inl hstays)⟩
        · have hfresh : Owned env w [⟨freshInfo, freshInfo⟩] := by
            refine ⟨fun l hl => ?_, ?_⟩
            · rw [hlive] at hl
              cases hl
            · rw [hlive]
              exact List.nodup_nil
          have htiled :
              Tiled env (firstPage env { w.heap with memEnd := env.memStart + 4096 }) _ _ :=
            firstPage_tiled rfl
          refine Or.inr ⟨blocks', epi', lists', hshows,
            hfresh.malloc htiled hout (padding_spec hsize).2.2.1,
            noPair_handsOut hout (.singleton _), fun htags => hcoh ?_, ?_⟩
          · exact (htags.resolve_left hzero).resolve_left fun hno => hno hgrows
          · simp only [hzero, hgrows, not_true_eq_false, false_or]
            exact hsizes
  | free ptr =>
      obtain ⟨l, hl, -⟩ := hallowed
      rw [hlive] at hl
      cases hl
  | realloc ptr size =>
      obtain ⟨-, l, hl, -⟩ := hallowed
      rw [hlive] at hl
      cases hl
  | store ptr offset byte =>
      obtain ⟨l, hl, -⟩ := hallowed
      rw [hlive] at hl
      cases hl

theorem prev_taken (h : Shows env s (pre ++ b :: post) epi lists [])
    (hprev : ∀ q, FreeBlock env s q → q + (s.info q).size ≠ firstBlock env + total pre) :
    ∀ c ∈ pre.getLast?, c.info.allocated = true := by
  intro c hc
  by_contra hfree
  obtain ⟨front, rfl⟩ := List.getLast?_eq_some_iff.mp hc
  have hat : At (firstBlock env) (front ++ [c] ++ b :: post) (firstBlock env + total front) c := by
    rw [List.append_assoc]
    exact at_middle _ front (b :: post) c
  have hinfo := h.tiled.header _ c hat
  refine hprev _ ⟨h.tiled.walk_of_at hat, ?_⟩ ?_
  · rw [hinfo]
    simpa using hfree
  · rw [hinfo, total_append, total_cons, total_nil, Nat.add_assoc]
    rfl

-- A good call of sf_free gives up the pointer, or frees the block behind it.
theorem free_ready {l : Live} (hdoc : Documented env) (h : Shows env w.heap blocks epi lists [])
    (howned : Owned env w blocks) (hl : l ∈ w.live) (hok : FreeOk env w.heap l.ptr) :
    sfFree env w.heap l.ptr = .error .abort ∨ ∃ pre b post s' blocks' epi' lists',
      blocks = pre ++ b :: post ∧ l.ptr = firstBlock env + total pre + 8 ∧
      sfFree env w.heap l.ptr = .ok s' ∧ Shows env s' blocks' epi' lists' [] ∧
        Frees pre b post blocks' ∧
      (Sorted lists ↔ Sorted lists') ∧ (Coherent true blocks epi → Coherent true blocks' epi') ∧
      KeepsLabels env (l.ptr - 8) blocks blocks' := by
  obtain ⟨hptr, b, hb, halloc, hsize⟩ := howned.block l hl
  obtain ⟨pre, post, rfl, hx⟩ := hb.split
  obtain ⟨x, hlx⟩ : ∃ x, l.ptr = x + 8 := ⟨l.ptr - 8, by omega⟩
  rw [hlx, Nat.add_sub_cancel] at hx
  rw [hlx] at hok ⊢
  cases hcheck : checkPtr env w.heap (x + 8) with
  | valid =>
      obtain ⟨s', blocks', epi', lists', heq, hshows, hfrees, hsorted, hcoh, hlabels⟩ :=
        sfFree_spec hdoc h hx halloc hok hcheck
      exact Or.inr ⟨pre, b, post, s', blocks', epi', lists',
        rfl, by rw [hx], heq, hshows, hfrees, hsorted, hcoh, hlabels⟩
  | invalid =>
      refine Or.inl ?_
      simp [sfFree, validPtr, hcheck]
  | oversized =>
      refine Or.inl ?_
      simp [sfFree, validPtr, hcheck]

-- A good call of sf_realloc gives up or refuses the pointer, or resizes the block
-- in its place.
theorem realloc_ready {l : Live} {size : Nat} (hdoc : Documented env)
    (h : Shows env w.heap blocks epi lists []) (howned : Owned env w blocks) (hl : l ∈ w.live)
    (hok : ReallocOk env w.heap l.ptr size) :
    sfRealloc env w.heap l.ptr size = .error .abort ∨
      sfRealloc env w.heap l.ptr size = .ok (0, { w.heap with errno := .einval }) ∨
      ∃ pre b post s' blocks' epi' lists', blocks = pre ++ b :: post ∧
        l.ptr = firstBlock env + total pre + 8 ∧
        b.info.allocated = true ∧ size + 8 ≤ padding size ∧
          sfRealloc env w.heap l.ptr size = .ok (l.ptr, s') ∧
        Shows env s' blocks' epi' lists' [] ∧ Resizes pre b post (padding size) blocks' ∧
        (Sorted lists ↔ Sorted lists') ∧
        (CutInside env w.heap l.ptr size → Coherent true blocks epi → Coherent true blocks' epi') ∧
        Recuts env size (padding size) (l.ptr - 8) blocks blocks' := by
  obtain ⟨hptr, b, hb, halloc, hsize⟩ := howned.block l hl
  obtain ⟨pre, post, rfl, hx⟩ := hb.split
  obtain ⟨x, hlx⟩ : ∃ x, l.ptr = x + 8 := ⟨l.ptr - 8, by omega⟩
  rw [hlx, Nat.add_sub_cancel] at hx hb
  rw [hlx] at hok ⊢
  have hinfo := h.tiled.header x b hb
  have hbsize : b.info.size = b.size := rfl
  by_cases hvalid : checkPtr env w.heap (x + 8) = .valid
  · obtain ⟨hlimit, hcases⟩ := hok.resolve_left fun hno => hno hvalid
    obtain ⟨hmin, hmod, hpad, -⟩ := padding_spec hlimit
    rw [Nat.add_sub_cancel, hinfo, hbsize] at hcases
    refine Or.inr (Or.inr ?_)
    rcases hcases with hsame | ⟨hle, hroom, hroomNext⟩
    · obtain ⟨s', b', heq, hshows, hlabel, hcoh, -⟩ := sfRealloc_same hdoc h hx halloc hvalid hsame
      have hshape : (pre ++ b' :: post).map Blk.shape = (pre ++ b :: post).map Blk.shape := by
        rw [List.map_append, List.map_append, List.map_cons, List.map_cons, shape_of_given hlabel,
          Blk.shape, halloc]
      have hsize' : b'.size = b.size := congrArg Prod.fst hlabel
      have hcut : Recuts env size (padding size) x (pre ++ b :: ([] ++ post)) (pre ++ b' :: post) :=
        recuts_of b' [] [] hx (by simp) (by simp) (by simp [hsize']) (hsame ▸ hlabel)
      exact ⟨pre, b, post, s', _, _, _,
        rfl, by
        rw [hx], halloc, hpad, heq, hshows, .same hsame hshape, Iff.rfl, fun _ => hcoh, hcut⟩
    · obtain ⟨s', blocks', epi', lists', heq, hshows, hres, hsorted, hcoh, hcut, -⟩ :=
        sfRealloc_shrink hdoc h hx halloc hvalid rfl hmin hmod hle hroom hroomNext
      refine ⟨pre, b, post, s', blocks', epi', lists',
        rfl, by rw [hx], halloc, hpad, heq, hshows, hres, hsorted, fun hinside => hcoh ?_, hcut⟩
      rintro rfl
      rcases hinside with hno | hno | hno
      · exact hno hvalid
      · rw [Nat.add_sub_cancel, hinfo, hbsize] at hno
        omega
      · rw [Nat.add_sub_cancel, hinfo, hbsize, h.memEnd] at hno
        have hlast :=
          (show Tiled env w.heap ((pre ++ [b]) ++ []) epi by simpa using h.tiled).next_eq.1 rfl
        rw [total_append, total_cons, total_nil] at hlast
        omega
  · rcases sfRealloc_invalid size hvalid with heq | heq
    · exact Or.inr (Or.inl heq)
    · exact Or.inl heq

-- Every step that is good returns, unless sf_free or sf_realloc gives up the
-- pointer, and keeps the layout of the heap.
theorem exec_ready {op : Op} (hdoc : Documented env) (h : Shows env w.heap blocks epi lists [])
    (howned : Owned env w blocks) (hgood : Good env w op) :
    exec env w op = .error .abort ∨ ∃ w' blocks' epi' lists', exec env w op = .ok w' ∧
      Moves env w w' op blocks epi lists blocks' epi' lists' := by
  obtain ⟨hallowed, hok⟩ := hgood
  have hne : env.memStart ≠ w.heap.memEnd := by
    rw [h.tiled.memEnd]
    omega
  cases op with
  | malloc size =>
      refine Or.inr ?_
      by_cases hzero : size = 0
      · have hnull : sfMalloc env w.heap size = .ok (0, w.heap) := by rw [sfMalloc, if_pos hzero]
        exact ⟨_, _, _, _, exec_malloc hnull, h, ⟨howned.block, howned.nodup⟩, fun _ => id,
          and_iff_right (Or.inl hzero), fun _ => id⟩
      · obtain ⟨hsize, hfit⟩ := hok.resolve_left hzero
        rw [if_neg hne] at hfit
        obtain ⟨ptr, s', blocks', epi', lists', heq, hshows, hout, hsizes, hcoh, -, -⟩ :=
          allocate_spec hdoc h hsize hfit
        have hcall : sfMalloc env w.heap size = .ok (ptr, s') := by
          rw [sfMalloc, if_neg hzero, if_neg hne, heq]
        refine ⟨_, blocks', epi', lists', exec_malloc hcall, hshows,
          howned.malloc h.tiled hout (padding_spec hsize).2.2.1, fun htags => ?_, ?_,
          fun _ => noPair_handsOut hout⟩
        · have htags' := htags.resolve_left hzero
          rw [if_neg hne] at htags'
          exact hcoh htags'
        · rw [SizesOk, if_neg hne, or_iff_right hzero]
          exact hsizes
  | free ptr =>
      obtain ⟨l, hl, rfl⟩ := hallowed
      rcases free_ready hdoc h howned hl hok with habort |
        ⟨pre, b, post, s', blocks', epi', lists', rfl, hptr, heq, hshows, hfrees, hsorted, hcoh, -⟩
      · refine Or.inl ?_
        rw [exec, habort]
        rfl
      · have hfree : Owned env ⟨s', w.live.filter (·.ptr ≠ l.ptr)⟩ blocks' := by
          rw [hptr]
          exact howned.free rfl hfrees
        refine Or.inr ⟨_, blocks', epi', lists', exec_free heq, hshows, hfree, fun _ => hcoh,
          (and_iff_right trivial).trans hsorted, fun hprev => noPair_frees hfrees (prev_taken h ?_)⟩
        simpa [PrevTaken, hptr] using hprev
  | realloc ptr size =>
      obtain ⟨-, l, hl, rfl⟩ := hallowed
      rcases realloc_ready hdoc h howned hl hok with habort | hrefused |
        ⟨pre, b, post, s', blocks', epi', lists', rfl, hptr, halloc, hpad, heq, hshows, hres,
          hsorted, hcoh, -⟩
      · refine Or.inl ?_
        rw [exec, habort]
        rfl
      · exact Or.inr ⟨_, _, _, _, exec_realloc hrefused, h.same rfl rfl rfl,
          ⟨howned.block, howned.nodup⟩, fun _ => id, and_iff_right trivial, fun _ => id⟩
      · have hnew : Owned env ⟨s', ⟨l.ptr, size⟩ :: w.live.filter (·.ptr ≠ l.ptr)⟩ blocks' := by
          rw [hptr]
          exact howned.realloc rfl halloc hpad hres
        refine Or.inr ⟨_, blocks', epi', lists', exec_realloc heq, hshows, ?_, hcoh,
          (and_iff_right trivial).trans hsorted, fun _ => noPair_resizes hres⟩
        rw [if_neg (by omega)]
        exact hnew
  | store ptr offset byte =>
      obtain ⟨l, hl, rfl, hlt⟩ := hallowed
      obtain ⟨hptr, b, hb, halloc, hsize⟩ := howned.block l hl
      have hmod := (h.tiled.inHeap hdoc hb).2.2
      refine Or.inr ⟨_, _, _, _, rfl, h.store hdoc hb halloc (by omega),
        ⟨howned.block, howned.nodup⟩, fun _ => id, and_iff_right trivial, fun _ => id⟩

end CSE320.Sfmm
