import CSE320.Sfmm.Init

namespace CSE320.Sfmm

variable {env : Sfutil} {s : State} {pre post : List Blk} {epi : Info} {lists : List SizeList}
  {l : SizeList} {b : Blk} {x : Nat}

-- A free block that is out of the lists becomes allocated.
theorem Shows.take (hdoc : Documented env) (h : Shows env s (pre ++ b :: post) epi lists [x])
    (hx : x = firstBlock env + total pre) {f : Info → Info} (hsize : (f b.info).size = b.size)
    (halloc : (f b.info).allocated = true) :
    Shows env (s.setInfo x f) (pre ++ { b with info := f b.info } :: post) epi lists [] := by
  have hat := at_middle (firstBlock env) pre post b
  rw [← hx] at hat
  have hb := h.tiled.sized b (by simp)
  have hnew : Blk.size { b with info := f b.info } = b.size := hsize
  have htiled := h.tiled.setHeader (f := f) hsize fun hfree => by rw [halloc] at hfree; cases hfree
  have hlisted : Listed env (s.setInfo x f) lists :=
    h.listed.setInfo (h.no_link hdoc hat (Or.inl rfl))
  rw [← hx] at htiled
  have hseg : Shows env s (pre ++ [b] ++ post) epi lists [x] := by simpa using h
  have hres := hseg.replaced [{ b with info := f b.info }] [] (by simpa using htiled) hlisted
    (by simp [hnew]) h.closed (by simp [← hx]; omega) (fun y m => ?_)
  · simpa using hres
  · rw [← hx]
    simp only [freeFrom_cons, freeFrom_nil, or_false, halloc, List.mem_singleton]
    grind

-- A block that is in no list is cut in two: the front is allocated, the rest is
-- free and not yet in a list.
theorem Shows.cut {out : List Nat} (s' : State) (p : Nat) (a r : Blk) (hdoc : Documented env)
    (h : Shows env s (pre ++ b :: post) epi lists out) (hx : x = firstBlock env + total pre)
    (hout : ∀ y ∈ out, y = x) (hno : x ∈ out ∨ b.info.allocated = true)
    (hend : s'.memEnd = s.memEnd) (hnodes : s'.nodes = s.nodes)
    (hsame : ∀ w, (w < x ∨ x + b.size ≤ w) → s'.mem w = s.mem w) (ha : s'.info x = a.info)
    (hr : s'.info (x + p) = r.info) (hfoot : s'.info (x + b.size - 8) = r.foot)
    (hasize : a.size = p) (hrsize : r.size = b.size - p) (halloc : a.info.allocated = true)
    (hp : 32 ≤ p) (hle : p + 32 ≤ b.size) :
    Shows env s' (pre ++ a :: r :: post) epi lists [x + p] := by
  have hat := at_middle (firstBlock env) pre post b
  rw [← hx] at hat
  have hnot (n : Nat) : ¬On lists x n := by
    rcases hno with hno | hno
    · exact h.not_on_out hno n
    · exact h.not_on_allocated hat hno n
  have hseg : Shows env s (pre ++ [b] ++ post) epi lists out := by simpa using h
  have htotal : total [a, r] = total [b] := by
    simp only [total_cons, total_nil]
    omega
  have htiled : Tiled env s' (pre ++ [a, r] ++ post) epi := by
    refine hseg.tiled.replace hend htotal (fun c hc => ?_) ?_ (fun y c hc => ?_)
    · simp only [List.mem_cons, List.not_mem_nil, or_false] at hc
      rcases hc with rfl | rfl <;> omega
    · simpa [← hx] using hsame
    · rw [← hx] at hc
      rcases hc with ⟨rfl, rfl⟩ | ⟨rfl, rfl⟩ | hc
      · exact ⟨ha, fun hfree => by rw [halloc] at hfree; cases hfree⟩
      · rw [hasize, hrsize, show x + p + (b.size - p) - 8 = x + b.size - 8 by omega]
        exact ⟨hr, fun _ => hfoot⟩
      · exact absurd hc id
  have hres := hseg.replaced [a, r] [x + p] htiled
    (h.listed_inside hdoc hat hnot hnodes hsame) htotal
    h.closed (fun y hy => ?_) (fun y m => ?_)
  · simpa using hres
  · rw [← hx, total_cons, total_nil]
    rcases List.mem_append.mp hy with hy | hy
    · rw [hout y hy]
      omega
    · rw [List.mem_singleton.mp hy]
      omega
  · rw [← hx]
    simp only [freeFrom_cons, freeFrom_nil, or_false, halloc, hasize, List.mem_singleton]
    grind

-- The new contents of the header of a block that is handed out.
def taken (size paddSize : Nat) (i : Info) : Info :=
  { i with requestedSize := BitVec.ofNat 32 size, blockSize :=
    Info.blocks paddSize, allocated := true }

theorem taken_size (size : Nat) {paddSize : Nat} (hmod : paddSize % 16 = 0)
    (hlt : paddSize < 2 ^ 32) (i : Info) :
    (taken size paddSize i).size = paddSize :=
  Info.size_blocks hmod hlt { i with requestedSize := BitVec.ofNat 32 size, allocated := true }

-- The order of the writes does not matter: the block can be taken out of its list
-- before the tags are written.
theorem exactFit_eq (hdoc : Documented env) (h : Shows env s (pre ++ b :: post) epi lists [])
    (hx : x = firstBlock env + total pre) (hl : l ∈ lists) {rest : List Nat}
    (hm : l.members = x :: rest) (size : Nat) :
    exactFit s size l.size l.node = (x + 8, ((s.unlink x).setInfo x (taken size l.size)).setInfo
      (match rest with
        | [] => env.memStart + 4088
        | y :: _ => y) (Info.setPrev true)) := by
  have hat := at_middle (firstBlock env) pre post b
  rw [← hx] at hat
  have hxmem : x ∈ l.members := by simp [hm]
  have hring := h.listed.ring l hl
  have hnext : s.linkNext (head l.node) = x := by
    rw [hm] at hring
    exact hring.next_head rfl
  have hword := (h.listed.link_words hl (List.mem_cons_self (a := head l.node) (l := l.members))).1
  have hxlink : ¬LinkWord env s lists x := h.no_link hdoc hat (Or.inl rfl)
  have hx' := h.tiled.bounds hat
  have hsingle := h.listed.single_iff hdoc hl
  -- the word that exactFit marks in front, whichever it is
  have hmark (z : Nat) (hz : ¬LinkWord env s lists z) (hzx : z ≠ x) :
      (((s.setInfo z (Info.setPrev true)).linkNext (head l.node) + 8),
        ((s.setInfo z (Info.setPrev true)).setInfo
          ((s.setInfo z (Info.setPrev true)).linkNext (head l.node))
          (taken size l.size)).unlink ((s.setInfo z (Info.setPrev true)).linkNext (head l.node))) =
        (x + 8, ((s.unlink x).setInfo x (taken size l.size)).setInfo z (Info.setPrev true)) := by
    have hnext' : (s.setInfo z (Info.setPrev true)).linkNext (head l.node) = x := by
      rw [State.linkNext, State.mem_setInfo_ne]
      · exact hnext
      · rintro he
        exact hz (he ▸ hword)
    have hlisted := h.listed.setInfo (f := Info.setPrev true) hz
    rw [hnext', hlisted.setInfo_unlink hdoc hl hxmem hxlink,
      h.listed.setInfo_unlink hdoc hl hxmem hz, State.setInfo_comm _ _ _ hzx]
  rw [exactFit]
  cases rest with
  | nil =>
      have hsame : s.linkNext (head l.node) = s.linkPrev (head l.node) := hsingle.mpr (by simp [hm])
      simp only [hsame, ne_eq, not_true_eq_false, if_false]
      rw [h.memEnd]
      exact hmark _ (h.no_link_epilogue hdoc) (by omega)
  | cons y rest =>
      have hdiff : x ≠ s.linkPrev (head l.node) := by
        intro he
        have hlen := hsingle.mp (hnext.trans he)
        simp [hm] at hlen
      have hymem : y ∈ l.members := by simp [hm]
      obtain ⟨⟨c, hc, -⟩, -⟩ := (h.free y l.size).mp ⟨l, hl, hymem, rfl⟩
      have hxy : s.linkNext x = y := by
        rw [hm] at hring
        exact (List.isChain_cons_cons.mp (List.isChain_cons_cons.mp hring).2).1.1
      have hyx : y ≠ x := by
        have hnd := h.listed.members_nodup hl
        rw [hm] at hnd
        rintro rfl
        simp at hnd
      simp only [ne_eq, hdiff, not_false_eq_true, if_true, hnext, hxy]
      exact hmark y (h.no_link hdoc hc (Or.inl rfl)) hyx

-- A block for a request is at the pointer, and the allocated blocks are kept.
structure Delivers (env : Sfutil) (size p ptr : Nat) (blocks blocks' : List Blk) : Prop where
  keeps : ∀ y, KeepsLabels env y blocks blocks'
  given : ptr ≠ 0 → ∃ c, At (firstBlock env) blocks' (ptr - 8) c ∧
    c.label = (p, some (BitVec.ofNat 32 size))

theorem delivers_of (a : Blk) (rest : List Blk) {blocks' : List Blk} {size p : Nat}
    (hx : x = firstBlock env + total pre) (hfree : b.info.allocated = false)
    (hlabel : blocks'.map Blk.label = (pre ++ (a :: rest) ++ post).map Blk.label)
    (htotal : total (a :: rest) = b.size) (ha : a.label = (p, some (BitVec.ofNat 32 size))) :
    Delivers env size p (x + 8) (pre ++ b :: post) blocks' := by
  refine ⟨fun y => ?_, fun _ => ?_⟩
  · have hkeep : KeepsLabels env y (pre ++ [b] ++ post) blocks' := by
      refine keepsLabels_of _ hlabel (by simpa using htotal) fun z c hc halloc => ?_
      rcases hc with ⟨-, rfl⟩ | hc
      · rw [hfree] at halloc
        cases halloc
      · exact absurd hc id
    simpa using hkeep
  · rw [List.append_assoc] at hlabel
    obtain ⟨c, hc, hs⟩ := label_at hlabel hx
    exact ⟨c, hc, hs.trans ha⟩

-- A list whose first block is handed out whole. Its epilogue bit is right only if
-- the block is the last one of the heap, and alone in its list.
theorem exactFit_spec (hdoc : Documented env) (h : Shows env s (pre ++ b :: post) epi lists [])
    (hx : x = firstBlock env + total pre) (hl : l ∈ lists) {rest : List Nat}
    (hm : l.members = x :: rest) (size : Nat) :
    ∃ s' blocks' epi' lists', exactFit s size l.size l.node = (x + 8, s') ∧
      Shows env s' blocks' epi' lists' [] ∧
      blocks'.map Blk.shape = pre.map Blk.shape ++ (l.size, true) :: post.map Blk.shape ∧
      lists'.map SizeList.size = lists.map SizeList.size ∧
      (rest = [] → post = [] → ∀ p, Coherent p (pre ++ b :: post) epi → Coherent p blocks' epi') ∧
      Delivers env size l.size (x + 8) (pre ++ b :: post) blocks' := by
  have hxmem : x ∈ l.members := by simp [hm]
  have hat := at_middle (firstBlock env) pre post b
  rw [← hx] at hat
  have hfree := ((h.free x l.size).mp ⟨l, hl, hxmem, rfl⟩).1
  have hsize : b.size = l.size := (h.member hat hl hxmem).1
  have hmod : b.size % 16 = 0 := Info.size_mod b.info
  have hbound := h.tiled.bounds hat
  obtain ⟨lists', hunlink, hsizes, -⟩ := h.unlink hdoc hfree List.not_mem_nil
  have hsizes' := sizes_of_nodes hsizes
  have htaken : (taken size l.size b.info).size = b.size := by
    rw [hsize] at hbound hmod ⊢
    exact taken_size size hmod (by omega) b.info
  have htake := hunlink.take hdoc hx (f := taken size l.size) htaken rfl
  have hshape : (pre ++ { b with info := taken size l.size b.info } :: post).map Blk.shape =
      pre.map Blk.shape ++ (l.size, true) :: post.map Blk.shape := by
    rw [List.map_append, List.map_cons, Blk.shape, Blk.size]
    simp only [htaken, hsize]
    rfl
  have hwhole : total [{ b with info := taken size l.size b.info }] = b.size := by
    rw [total_cons, total_nil, Nat.add_zero]
    exact htaken
  have hlabelled : Blk.label { b with info := taken size l.size b.info } =
    (l.size, some (BitVec.ofNat 32 size)) := by
    rw [label_allocated rfl, Blk.size, htaken, hsize]
    rfl
  have hdelivers {blocks' : List Blk} (hlabel : blocks'.map Blk.label =
      (pre ++ [{ b with info := taken size l.size b.info }] ++ post).map Blk.label) :
      Delivers env size l.size (x + 8) (pre ++ b :: post) blocks' :=
    delivers_of _ [] hx (h.member hat hl hxmem).2 hlabel hwhole hlabelled
  rw [exactFit_eq hdoc h hx hl hm size]
  cases rest with
  | nil =>
      have htiled := htake.tiled.setEpilogue (Info.setPrev true)
      have hlisted := htake.listed.setInfo (f := Info.setPrev true) (htake.no_link_epilogue hdoc)
      refine ⟨_, _, _, _, rfl, htake.reshape htiled hlisted rfl htake.closed, hshape, hsizes',
        fun _ hpost p hcoh => ?_, hdelivers (by simp)⟩
      subst hpost
      have hmark := coherent_markNext { b with info := taken size l.size b.info } hcoh
        (prevIn_append.mp hcoh.prev).1 (prevIn_append.mp hcoh.prev).2.1 (fun hf => by cases hf)
      exact hmark
  | cons y rest =>
      have hymem : y ∈ l.members := by simp [hm]
      have hyx : y ∉ [x] := by
        have hnd := h.listed.members_nodup hl
        rw [hm] at hnd
        rintro hy
        rw [List.mem_singleton.mp hy] at hnd
        simp at hnd
      have hy : On lists' y l.size :=
        (hunlink.free y l.size).mpr ⟨((h.free y l.size).mp ⟨l, hl, hymem, rfl⟩).1, hyx⟩
      obtain ⟨⟨c, hc, -⟩, -⟩ := (htake.free y l.size).mp hy
      obtain ⟨first, second, hsplit, hyat⟩ := hc.split
      have htiled := htake.tiled
      rw [hsplit] at htiled
      have htiled' := htiled.setHeader (f := Info.setPrev true) rfl id
      have hlisted := htake.listed.setInfo (f :=
        Info.setPrev true) (htake.no_link hdoc hc (Or.inl rfl))
      rw [← hyat] at htiled'
      refine ⟨_, _, _, _, rfl, htake.reshape htiled' hlisted ?_ htake.closed, ?_, hsizes',
        fun hnil => ?_, hdelivers ?_⟩
      · rw [hsplit]
        simp [Blk.shape, Blk.size, Info.setPrev, Info.size]
      · rw [← hshape, hsplit]
        simp [Blk.shape, Blk.size, Info.setPrev, Info.size]
      · cases hnil
      · rw [List.append_assoc, List.singleton_append, hsplit]
        simp [Blk.label, Blk.size, Info.setPrev, Info.size]

-- The header of the part that is handed out, and the two tags of the rest.
def handed (env : Sfutil) (size paddSize x : Nat) (i : Info) : Info :=
  if firstBlock env = x then (taken size paddSize i).setPrev true else taken size paddSize i

def restInfo (n : Nat) : Info where
  allocated := false
  prevAllocated := true
  twoZeroes := 0
  blockSize := Info.blocks n
  requestedSize := 0

def restFoot (n : Nat) (i : Info) : Info :=
  { i with blockSize := Info.blocks n, prevAllocated := true }

theorem restInfo_size {n : Nat} (hmod : n % 16 = 0) (hlt : n < 2 ^ 32) : (restInfo n).size = n :=
  Info.size_blocks hmod hlt ⟨false, true, 0, 0, 0⟩

theorem handed_size {size paddSize : Nat} (hmod : paddSize % 16 = 0) (hlt : paddSize < 2 ^ 32)
    (i : Info) :
    (handed env size paddSize x i).size = paddSize := by
  rw [handed]
  split
  · exact taken_size size hmod hlt i
  · exact taken_size size hmod hlt i

theorem handed_requested (size paddSize : Nat) (i : Info) :
    (handed env size paddSize x i).requestedSize = BitVec.ofNat 32 size := by
  rw [handed]
  split <;> rfl

theorem handed_allocated (size paddSize : Nat) (i : Info) :
    (handed env size paddSize x i).allocated = true := by
  rw [handed]
  split <;> rfl

-- What cut_block writes once the block is out of its list.
def cutTags (env : Sfutil) (s : State) (size paddSize x : Nat) : State :=
  let s := s.clearHeader (x + paddSize)
  let splitSize := Info.blocks (subSize (s.info x).size paddSize)
  let s := s.setInfo (x + paddSize) fun i =>
    { i with blockSize := splitSize, prevAllocated := true }
  let s := s.setInfo (x + (s.info x).size - 8) fun i =>
    { i with blockSize := splitSize, prevAllocated := true }
  let s := s.setInfo x (taken size paddSize)
  if firstBlock env = x then s.setInfo x (Info.setPrev true) else s

theorem cutBlock_eq (size paddSize : Nat) :
    cutBlock env s size paddSize x = cutTags env (s.unlink x) size paddSize x := rfl

theorem cutTags_spec (env : Sfutil) (size : Nat) {p n : Nat} {i : Info} (hi : s.info x = i)
    (hn : i.size = n) (hp : 0 < p) (hle : p + 32 ≤ n) :
    (cutTags env s size p x).memEnd = s.memEnd ∧ (cutTags env s size p x).nodes = s.nodes ∧
      (∀ w, (w < x ∨ x + n ≤ w) → (cutTags env s size p x).mem w = s.mem w) ∧
      (cutTags env s size p x).info x = handed env size p x i ∧
      (cutTags env s size p x).info (x + p) = restInfo (n - p) ∧
      (cutTags env s size p x).info (x + n - 8) = restFoot (n - p) (s.info (x + n - 8)) := by
  have hlt : n < 2 ^ 64 := by
    have hbits := i.blockSize.isLt
    rw [Info.size] at hn
    omega
  have hclear : (s.clearHeader (x + p)).info x = i := by
    simp (disch := omega) only [State.clearHeader, State.info_write_ne, hi]
  have hsub := subSize_eq (show p ≤ n by omega) hlt
  simp only [cutTags]
  rw [State.info_setInfo_ne _ _ (by omega), hclear, hn, hsub]
  -- the state before the header of the block itself is written
  have hrest : ∀ t : State, t = ((s.clearHeader (x + p)).setInfo (x + p)
      fun i => { i with blockSize := Info.blocks (n - p), prevAllocated := true }).setInfo
        (x + n - 8)
      (restFoot (n - p)) → t.memEnd = s.memEnd ∧ t.nodes = s.nodes ∧
      (∀ w, (w < x ∨ x + n ≤ w) → t.mem w = s.mem w) ∧ t.info x = i ∧
      t.info (x + p) = restInfo (n - p) ∧ t.info (x + n - 8) =
        restFoot (n - p) (s.info (x + n - 8)) := by
    rintro t rfl
    refine ⟨rfl, rfl, fun w hw => ?_, ?_, ?_, ?_⟩
    · simp (disch := omega) only [State.mem_setInfo_ne, State.clearHeader, State.mem_write_ne]
    · simp (disch := omega) only [State.info_setInfo_ne, hclear]
    · simp (disch := omega) only [State.info_setInfo_ne, State.info_setInfo_self, State.clearHeader,
        State.info_write_ne, State.info_write_self]
      rfl
    · simp (disch := omega) only [State.info_setInfo_ne, State.info_setInfo_self, State.clearHeader,
        State.info_write_ne]
  obtain ⟨hend, hnodes, hout, hself, hnext, hfoot⟩ := hrest _ rfl
  split
  · rename_i hfirst
    refine ⟨hend, hnodes, fun w hw => ?_, ?_, ?_, ?_⟩
    · rw [State.mem_setInfo_ne _ _ (by omega), State.mem_setInfo_ne _ _ (by omega)]
      exact hout w hw
    · rw [State.info_setInfo_self, State.info_setInfo_self, handed, if_pos hfirst]
      exact congrArg _ (congrArg _ hself)
    · rw [State.info_setInfo_ne _ _ (by omega), State.info_setInfo_ne _ _ (by omega)]
      exact hnext
    · rw [State.info_setInfo_ne _ _ (by omega), State.info_setInfo_ne _ _ (by omega)]
      exact hfoot
  · rename_i hfirst
    refine ⟨hend, hnodes, fun w hw => ?_, ?_, ?_, ?_⟩
    · rw [State.mem_setInfo_ne _ _ (by omega)]
      exact hout w hw
    · rw [State.info_setInfo_self, handed, if_neg hfirst]
      exact congrArg _ hself
    · rw [State.info_setInfo_ne _ _ (by omega)]
      exact hnext
    · rw [State.info_setInfo_ne _ _ (by omega)]
      exact hfoot

theorem cutBlock_spec {p : Nat} (size : Nat) (hdoc : Documented env)
    (h : Shows env s (pre ++ b :: post) epi lists []) (hx : x = firstBlock env + total pre)
    (hfree : b.info.allocated = false) (hp : 32 ≤ p) (hmod : p % 16 = 0) (hle : p + 32 ≤ b.size) :
    ∃ a r lists', Shows env (cutBlock env s size p x) (pre ++ a :: r :: post) epi lists' [x + p] ∧
      a.label = (p, some (BitVec.ofNat 32 size)) ∧ r.size = b.size - p ∧ r.info.allocated = false ∧
      lists'.map (fun l => (l.node, l.size)) = lists.map (fun l => (l.node, l.size)) ∧
      ∀ q, (q = true ∨ pre = []) → Coherent q (pre ++ b :: post) epi →
        Coherent true (pre ++ a :: r :: post) epi := by
  have hat := at_middle (firstBlock env) pre post b
  rw [← hx] at hat
  have hbound := h.tiled.bounds hat
  have hbmod : b.size % 16 = 0 := Info.size_mod b.info
  obtain ⟨lists', hunlink, hsizes, -⟩ := h.unlink hdoc ⟨b, hat, hfree, rfl⟩ List.not_mem_nil
  obtain ⟨hend, hnodes, hsame, hself, hnext, hfoot⟩ :=
    cutTags_spec env size (hunlink.tiled.header x b hat) (n := b.size) rfl (show 0 < p by omega) hle
  rw [hunlink.tiled.footer x b hat hfree] at hfoot
  have hrest : (restInfo (b.size - p)).size = b.size - p := restInfo_size (by omega) (by omega)
  have hhand : (handed env size p x b.info).size = p := handed_size hmod (by omega) b.info
  have hcut := hunlink.cut (cutTags env (s.unlink x) size p x) p
    ⟨handed env size p x b.info, b.foot⟩ ⟨restInfo (b.size - p),
      restFoot (b.size - p) b.foot⟩ hdoc hx
    (by simp) (Or.inl (by simp)) hend hnodes hsame hself hnext hfoot hhand hrest
    (handed_allocated size p b.info) hp hle
  have hlabel : Blk.label ⟨handed env size p x b.info, b.foot⟩ =
      (p, some (BitVec.ofNat 32 size)) := by
    rw [label_allocated (handed_allocated size p b.info), handed_requested, Blk.size, hhand]
  refine ⟨_, _, lists', hcut, hlabel, hrest, rfl, hsizes, fun q hq hcoh => ?_⟩
  obtain ⟨hprev, hepi, hfeet⟩ := hcoh
  obtain ⟨hpre, hb, hpost⟩ := prevIn_append.mp hprev
  rw [hfree] at hpost
  rw [allocEnd_append, allocEnd, hfree] at hepi
  have hpre' : PrevIn true pre := by
    rcases hq with rfl | rfl
    · exact hpre
    · trivial
  -- the first block gets the bit, any other has it already
  have hbit : (handed env size p x b.info).prevAllocated = allocEnd true pre := by
    rw [handed]
    split
    · rename_i hfirst
      cases pre with
      | nil => rfl
      | cons c rest =>
          have hc := h.tiled.sized c (by simp)
          rw [total_cons] at hx
          omega
    · rename_i hfirst
      rcases hq with rfl | rfl
      · exact hb
      · exact absurd hx.symm hfirst
  refine ⟨prevIn_append.mpr ⟨hpre', hbit, ?_, hpost⟩, ?_, fun c hc => ?_⟩
  · rw [handed_allocated]
    rfl
  · rw [allocEnd_append]
    exact hepi
  · simp only [List.mem_append, List.mem_cons] at hc
    rcases hc with hc | rfl | rfl | hc
    · exact hfeet c (by simp [hc])
    · intro hf
      rw [handed_allocated] at hf
      cases hf
    · intro _
      exact ⟨rfl, (hfeet b (by simp) hfree).2.1, rfl⟩
    · exact hfeet c (by simp [hc])

theorem splitBlock_spec {p : Nat} (hdoc : Documented env)
    (h : Shows env s (pre ++ b :: post) epi lists []) (hx : x = firstBlock env + total pre)
    (hl : l ∈ lists) {rest : List Nat} (hm : l.members = x :: rest) (size : Nat)
    (hp : 32 ≤ p) (hmod : p % 16 = 0) (hle : p + 32 ≤ l.size) :
    ∃ s' a r lists', splitBlock env s size p l.node = .ok (x + 8, s') ∧
      Shows env s' (pre ++ a :: r :: post) epi lists' [] ∧
      a.label = (p, some (BitVec.ofNat 32 size)) ∧ r.shape = (l.size - p, false) ∧
      ((∃ c ∈ lists, c.size = l.size - p) → lists'.map SizeList.size = lists.map SizeList.size) ∧
      ((∀ c ∈ lists, c.size ≠ l.size - p) →
        lists'.map SizeList.size = lists.map SizeList.size ++ [l.size - p]) ∧
      ∀ q, (q = true ∨ pre = []) → Coherent q (pre ++ b :: post) epi →
        Coherent true (pre ++ a :: r :: post) epi := by
  have hxmem : x ∈ l.members := by simp [hm]
  have hat := at_middle (firstBlock env) pre post b
  rw [← hx] at hat
  obtain ⟨hsize, hfree⟩ := h.member hat hl hxmem
  have hbound := h.tiled.bounds hat
  have hnext : s.linkNext (head l.node) = x := by
    have hring := h.listed.ring l hl
    rw [hm] at hring
    exact hring.next_head rfl
  obtain ⟨a, r, lists', hcut, hlabel, hr, hr', hnodes, hcoh⟩ :=
    cutBlock_spec size hdoc h hx hfree hp hmod (hsize ▸ hle)
  have ha : a.size = p := congrArg Prod.fst hlabel
  have hsizes := sizes_of_nodes hnodes
  have hrest : FreeAt env (pre ++ a :: r :: post) (x + p) (l.size - p) := by
    refine ⟨r, at_append.mpr (Or.inr (Or.inr (Or.inl ⟨?_, rfl⟩))), hr', by rw [hr, hsize]⟩
    rw [hx, ha]
  have hnode : (cutBlock env s size p x).nodeSize l.node = l.size := by
    obtain ⟨l', hl', he⟩ : ∃ l' ∈ lists', (l'.node, l'.size) = (l.node, l.size) := by
      have hmem : (l.node, l.size) ∈ lists'.map (fun l => (l.node, l.size)) := by
        rw [hnodes]
        exact List.mem_map.mpr ⟨l, hl, rfl⟩
      exact List.mem_map.mp hmem
    simp only [Prod.mk.injEq] at he
    rw [← he.1, hcut.listed.nodeSizes l' hl', he.2]
  have hfind : findSize _ (l.size - p) _ _ = _ :=
    hcut.listed.findSize hcut.pos (List.nil_append lists').symm
      (show lists'.length < (cutBlock env s size p x).nodes +
        1 by rw [hcut.listed.nodeCount]; omega)
  have hshape : r.shape = (l.size - p, false) := by simp [Blk.shape, hr, hr', hsize]
  rw [splitBlock]
  simp only [hnext, hnode, subSize_eq (show p ≤ l.size by omega) (show l.size < 2 ^ 64 by omega),
    hcut.listed.nodeNext_head]
  rw [hfind, Lib.ok_bind]
  cases hknown : lists'.find? (·.size = l.size - p) with
  | some c =>
      obtain ⟨hc, first, second, rfl, -⟩ := List.find?_eq_some_iff_append.mp hknown
      simp only [decide_eq_true_eq] at hc
      obtain ⟨y, hy, -⟩ := id hrest
      obtain ⟨hlisted, hrel⟩ :=
        hcut.listed.linkFront hdoc (hcut.tiled.inHeap hdoc hy) hcut.not_member
      refine ⟨_, a, r, _, rfl, hcut.pushed hdoc (hc.symm ▸ hrest) List.not_mem_nil hlisted hrel,
        hlabel, hshape, fun _ => ?_, fun hnone => ?_, hcoh⟩
      · rw [← hsizes]
        simp
      · have hmem : c.size ∈ lists.map SizeList.size := by
          rw [← hsizes]
          exact List.mem_map_of_mem (mem_middle.mpr (Or.inl rfl))
        obtain ⟨d, hd, he⟩ := List.mem_map.mp hmem
        exact absurd (he.trans hc) (hnone d hd)
  | none =>
      obtain ⟨s₁, node, hadd, hadded, -⟩ := Shows.add hdoc (show Shows env _ _ _ (lists' ++ []) _ by
        rw [List.append_nil]
        exact hcut) (show 32 ≤ l.size - p by omega)
      have hlinked := hadded.linkFirst hdoc rfl hrest List.not_mem_nil
      have hinfo := hlinked.setNodeInfo hdoc (mem_middle.mpr (Or.inl rfl))
        fun i => { i with blockSize := Info.blocks (l.size - p) }
      simp only [Option.map_none, hcut.listed.nodeNext_last]
      rw [show firstNode env [] = env.slot 0 from rfl] at hadd
      rw [hadd]
      refine ⟨_, a, r, _, rfl, hinfo, hlabel, hshape, ?_, fun _ => ?_, hcoh⟩
      · rintro ⟨c, hc, hcsize⟩
        have hmem : c.size ∈ lists'.map SizeList.size := by
          rw [hsizes]
          exact List.mem_map_of_mem hc
        obtain ⟨c', hc', he⟩ := List.mem_map.mp hmem
        have hnone := List.find?_eq_none.mp hknown c' hc'
        simp only [decide_eq_true_eq] at hnone
        omega
      · rw [List.map_append, hsizes]
        rfl

variable (env s)

-- The list that the search of sf_malloc ends with.
def fitOf (size : Nat) : Except Stop Fit :=
  search s (padding size) (s.nodes + 1) (s.nodeNext (env.slot 0)) none

-- The calls of sf_malloc on a heap that is there: a block of the exact size, a
-- larger one that leaves at least 32 bytes, or none while the heap cannot grow.
def FitOk (size : Nat) : Prop :=
  match fitOf env s size with
  | .ok (.exact _) => True
  | .ok (.best node) => padding size + 32 ≤ s.nodeSize node
  | .ok .none => ¬Grows env s ∧ (extensionStart s).2 < padding size
  | .error _ => False

instance (size : Nat) : Decidable (FitOk env s size) :=
  match h : fitOf env s size with
  | .ok (.exact _) => .isTrue (by simp only [FitOk, h])
  | .ok (.best node) =>
      decidable_of_iff (padding size + 32 ≤ s.nodeSize node) (by simp only [FitOk, h])
  | .ok .none =>
    decidable_of_iff (¬Grows env s ∧ (extensionStart s).2 < padding size) (by simp only [FitOk, h])
  | .error _ => .isFalse (by simp only [FitOk, h, not_false_eq_true])

-- A block that is handed out whole is alone in its list and the last in the heap.
def ExactAtEnd (size : Nat) : Prop :=
  match fitOf env s size with
  | .ok (.exact node) =>
    s.linkNext (head node) = s.linkPrev (head node) ∧
      s.linkNext (head node) + (s.info (s.linkNext (head node))).size = s.memEnd - 8
  | _ => True

instance (size : Nat) : Decidable (ExactAtEnd env s size) :=
  match h : fitOf env s size with
  | .ok (.exact node) =>
    decidable_of_iff (s.linkNext (head node) = s.linkPrev (head node) ∧
      s.linkNext (head node) + (s.info (s.linkNext (head node))).size = s.memEnd - 8)
      (by simp only [ExactAtEnd, h])
  | .ok (.best _) => .isTrue (by simp only [ExactAtEnd, h])
  | .ok .none => .isTrue (by simp only [ExactAtEnd, h])
  | .error _ => .isTrue (by simp only [ExactAtEnd, h])

-- There is a size node for what is left of a block.
def RestKnown (size : Nat) : Prop :=
  match fitOf env s size with
  | .ok (.best node) =>
    findSize s (s.nodeSize node - padding size) (s.nodes + 1) (s.nodeNext (env.slot 0)) ≠ .ok none
  | _ => True

-- What a call of sf_malloc does to the blocks, up to the bits that do not count
-- for their shape.
inductive HandsOut (p : Nat) (blocks : List Blk) : Nat → List Blk → Prop
  | failed : HandsOut p blocks 0 blocks
  | given {pre mid post blocks' : List Blk} {b : Blk} (hblocks : blocks = pre ++ b :: post)
      (hfree : b.info.allocated = false)
      (hshape : blocks'.map Blk.shape = (pre ++ mid ++ post).map Blk.shape)
      (hmid : (b.size = p ∧ mid.map Blk.shape = [(p, true)]) ∨
        (p + 32 ≤ b.size ∧ mid.map Blk.shape = [(p, true), (b.size - p, false)])) :
      HandsOut p blocks (firstBlock env + total pre + 8) blocks'

variable {env s} {blocks : List Blk} {size : Nat}

theorem extendHeap_fails (size : Nat) {p : Nat} (hgrows : ¬Grows env s)
    (hsize : (extensionStart s).2 < p) :
    extendHeap env s size p =
      .ok (.failed, { s with growCalls := s.growCalls + 1, errno := .enomem }) := by
  have hgrow : sfMemGrow env s =
      (none, { s with growCalls := s.growCalls + 1, errno := .enomem }) :=
    if_neg hgrows
  have hexact : exactSize env (p + 1) s (extensionStart s).2 p =
      .ok (none, { s with growCalls := s.growCalls + 1, errno := .enomem }) := by
    rw [exactSize, if_pos hsize, hgrow]
  rw [extendHeap, hexact]
  rfl

theorem Shows.fit (hdoc : Documented env) (h : Shows env s blocks epi lists []) (size : Nat) :
    ∃ fit, fitOf env s size = .ok fit ∧ Found lists (padding size) fit := by
  exact h.listed.search hdoc h.pos (padding size) (by rw [h.listed.nodeCount]; omega)

-- The first block of a list that the search ends with.
theorem Shows.first_member (h : Shows env s blocks epi lists []) (hl : l ∈ lists)
    (hne : l.members ≠ []) :
    ∃ x rest pre b post, l.members = x :: rest ∧ blocks = pre ++ b :: post ∧
      x = firstBlock env + total pre ∧ b.size = l.size ∧ b.info.allocated = false := by
  obtain ⟨x, rest, hm⟩ := List.exists_cons_of_ne_nil hne
  obtain ⟨⟨b, hb, hfree, hsize⟩, -⟩ := (h.free x l.size).mp ⟨l, hl, by simp [hm], rfl⟩
  obtain ⟨pre, post, rfl, rfl⟩ := hb.split
  exact ⟨_, rest, pre, b, post, hm, rfl, rfl, hsize, hfree⟩

theorem allocate_spec (hdoc : Documented env) (h : Shows env s blocks epi lists [])
    (hsize : size ≤ 2 ^ 64 - 24) (hfit : FitOk env s size) :
    ∃ ptr s' blocks' epi' lists', allocate env s size = .ok (ptr, s') ∧
      Shows env s' blocks' epi' lists' [] ∧ HandsOut env (padding size) blocks ptr blocks' ∧
      (RestKnown env s size ∧ Sorted lists ↔ Sorted lists') ∧
      (ExactAtEnd env s size → Coherent true blocks epi → Coherent true blocks' epi') ∧
      (∀ b q, blocks = [b] → b.info.allocated = false → padding size + 32 ≤ b.size →
        Coherent q blocks epi → Coherent true blocks' epi') ∧
      Delivers env size (padding size) ptr blocks blocks' := by
  obtain ⟨hmin, hmod, -, -⟩ := padding_spec hsize
  obtain ⟨fit, hsearch, hfound⟩ := h.fit hdoc size
  simp only [FitOk, RestKnown, ExactAtEnd, hsearch] at hfit ⊢
  rw [fitOf] at hsearch
  rw [allocate, hsearch, Lib.ok_bind]
  cases fit with
  | exact node =>
      obtain ⟨l, hl, rfl, hlsize, hne⟩ := hfound
      obtain ⟨_, rest, pre, b, post, hm, rfl, rfl, hb, hfree⟩ := h.first_member hl hne
      have hat := at_middle (firstBlock env) pre post b
      have hbound := h.tiled.bounds hat
      obtain ⟨s', blocks', epi', lists', heq, hshows, hshape, hsizes, hcoh, hdelivers⟩ :=
        exactFit_spec hdoc h rfl hl hm size
      rw [hlsize] at heq hshape hb hdelivers
      refine ⟨_, s', blocks', epi', lists', congrArg Except.ok heq, hshows, ?_, ?_,
        fun hend hc => ?_, fun c q hc hfree' hle _ => ?_, hdelivers⟩
      · have htaken : Blk.shape { b with info := taken size (padding size) b.info } =
          (padding size, true) := by
          rw [Blk.shape, Blk.size, taken_size size hmod (by omega)]
          rfl
        have hmid : [({ b with info := taken size (padding size) b.info } : Blk)].map Blk.shape =
            [(padding size, true)] := congrArg (fun c => [c]) htaken
        refine .given rfl hfree ?_ (Or.inl ⟨hb, hmid⟩)
        rw [hshape, ← htaken]
        simp
      · simp [Sorted, hsizes]
      · obtain ⟨hsingle, hlast⟩ := hend
        have hrest : rest = [] := by
          have hlen := (h.listed.single_iff hdoc hl).mp hsingle
          rw [hm] at hlen
          simpa using hlen
        have hfirst : s.linkNext (head l.node) = firstBlock env + total pre := by
          have hring := h.listed.ring l hl
          rw [hm] at hring
          exact hring.next_head rfl
        refine hcoh hrest (h.tiled.last_block ?_) true hc
        rw [hfirst, h.tiled.header _ b hat, h.memEnd] at hlast
        exact hlast
      · obtain ⟨rfl, rfl⟩ : pre = [] ∧ b = c := by
          cases pre with
          | nil => exact ⟨rfl, (List.cons.inj hc).1⟩
          | cons d rest => simp at hc
        omega
  | best node =>
      obtain ⟨l, hl, rfl, hlsize, hne⟩ := hfound
      obtain ⟨_, rest, pre, b, post, hm, rfl, rfl, hb, hfree⟩ := h.first_member hl hne
      have hnode := h.listed.nodeSizes l hl
      have hle : padding size + 32 ≤ l.size := hnode ▸ hfit
      obtain ⟨s', a, r, lists', heq, hshows, ha, hr, hsizes, hadded, hcoh⟩ :=
        splitBlock_spec hdoc h rfl hl hm size hmin hmod hle
      refine ⟨_, s', _, epi, lists', heq, hshows, ?_, ?_,
        fun _ hc => hcoh true (Or.inl rfl) hc, fun c q hc _ _ hcoh' => hcoh q (Or.inr ?_) hcoh', ?_⟩
      · have hmid : [a, r].map Blk.shape =
            [(padding size, true), (b.size - padding size, false)] := by
          simp [shape_of_given ha, hr, hb]
        exact .given rfl hfree (by simp) (Or.inr ⟨hb ▸ hle, hmid⟩)
      · simp only [hnode, h.listed.nodeNext_head]
        rw [h.listed.findSize h.pos (List.nil_append lists).symm
          (by rw [h.listed.nodeCount]; omega)]
        cases hknown : lists.find? (·.size = l.size - padding size) with
        | some d =>
            have hd := List.find?_some hknown
            simp only [decide_eq_true_eq] at hd
            simp [Sorted, hsizes ⟨d, List.mem_of_find?_eq_some hknown, hd⟩]
        | none =>
            have hnone (c : SizeList) (hc : c ∈ lists) : c.size ≠ l.size - padding size := by
              simpa using List.find?_eq_none.mp hknown c hc
            -- the new size is at the end, behind the largest one
            have hunsorted : ¬Sorted lists' := by
              rw [Sorted, hadded hnone, List.pairwise_append]
              rintro ⟨-, -, hlast⟩
              obtain ⟨c, hc, hcsize⟩ := h.whole
              have hlt := hlast c.size (List.mem_map_of_mem hc) _ List.mem_cons_self
              have hbound := h.tiled.bounds (at_middle (firstBlock env) pre post b)
              simp only [firstBlock] at hbound
              omega
            simp [hunsorted]
      · cases pre with
        | nil => rfl
        | cons d rest => simp at hc
      · have hasize : a.size = padding size := congrArg Prod.fst ha
        have hrsize : r.size = l.size - padding size := congrArg Prod.fst hr
        refine delivers_of a [r] rfl hfree (by simp) ?_ ha
        simp only [total_cons, total_nil, hasize, hrsize, hb]
        omega
  | none =>
      have hfails := extendHeap_fails size hfit.1 hfit.2
      simp only [hfails]
      refine ⟨0, _, blocks, epi, lists, rfl, h.same rfl rfl rfl, .failed, by simp, fun _ hc => hc,
        fun b q hb hfree hle _ => ?_, ⟨fun y z c hc _ _ => ⟨c, hc, rfl⟩, fun hne => absurd rfl hne⟩⟩
      -- a free block would have been found
      subst hb
      obtain ⟨l, hl, hmem, hlsize⟩ := (h.free (firstBlock env) b.size).mpr
        ⟨⟨b, Or.inl ⟨rfl, rfl⟩, hfree, rfl⟩, List.not_mem_nil⟩
      rw [hfound l hl (by omega)] at hmem
      cases hmem

variable (env s size)

-- The first call, on an empty heap: the page that it adds either is refused, or
-- holds the block, or there is no second page.
def FirstOk : Prop :=
  ¬Grows env s ∨ padding size = freeBlockSize ∨ padding size + 32 ≤ freeBlockSize ∨
    (freeBlockSize < padding size ∧
      ¬Grows env { s with memEnd := s.memEnd + pageSz, growCalls := s.growCalls + 1 })

-- The calls of sf_malloc that keep the heap safe.
def MallocOk : Prop :=
  size = 0 ∨ size ≤ 2 ^ 64 - 24 ∧
    if env.memStart = s.memEnd then FirstOk env s size else FitOk env s size

instance : Decidable (FirstOk env s size) := inferInstanceAs (Decidable (_ ∨ _ ∨ _ ∨ (_ ∧ _)))

instance : Decidable (MallocOk env s size) := inferInstanceAs (Decidable (_ ∨ _ ∧ _))

variable {env s size}

theorem fresh_coherent : Coherent false [⟨freshInfo, freshInfo⟩] freshEpilogue :=
  ⟨⟨rfl, trivial⟩, rfl, fun b hb => by
    rw [List.mem_singleton.mp hb]
    exact fun _ => ⟨rfl, rfl, rfl⟩⟩

theorem sfMalloc_first (hdoc : Documented env) (hend : s.memEnd = env.memStart)
    (hlisted : Listed env s []) (hne : size ≠ 0) (hsize : size ≤ 2 ^ 64 - 24)
    (hfirst : FirstOk env s size) :
    ∃ ptr s', sfMalloc env s size = .ok (ptr, s') ∧
      ((¬Grows env s ∧ ptr = 0 ∧ s'.memEnd = env.memStart ∧ Listed env s' []) ∨
        (Grows env s ∧ ∃ blocks' epi' lists', Shows env s' blocks' epi' lists' [] ∧
          HandsOut env (padding size) [⟨freshInfo, freshInfo⟩] ptr blocks' ∧
          (freeBlockSize ≤ padding size ↔ Sorted lists') ∧
          (padding size + 32 ≤ freeBlockSize → Coherent true blocks' epi') ∧
          Delivers env size (padding size) ptr [⟨freshInfo, freshInfo⟩] blocks')) := by
  rw [sfMalloc, if_neg hne, if_pos hend.symm]
  by_cases hgrows : Grows env s
  · obtain ⟨s₁, node, hinit, hcalls, hshows⟩ := initMem_grows hdoc hend hlisted hgrows
    have hend₁ : s₁.memEnd = s.memEnd + pageSz := by rw [hshows.tiled.memEnd, hend, pageSz]
    obtain ⟨fit, hfit, hfound⟩ := hshows.fit hdoc size
    have hnode : s₁.nodeSize node = 4048 := hshows.listed.nodeSizes _ List.mem_cons_self
    have hfree : freeBlockSize = 4048 := rfl
    have hok : FitOk env s₁ size := by
      rw [FitOk, hfit]
      cases fit with
      | exact _ => trivial
      | best best =>
          obtain ⟨l, hl, rfl, hlt, -⟩ := hfound
          rw [List.mem_singleton.mp hl] at hlt ⊢
          simp only [hnode] at hlt ⊢
          rcases hfirst with hno | hfirst | hfirst | ⟨hfirst, -⟩
          · exact absurd hgrows hno
          · omega
          · omega
          · omega
      | none =>
          have hlarge : freeBlockSize < padding size := by
            by_contra hle
            cases hfound _ List.mem_cons_self (show padding size ≤ 4048 by omega)
          have hgrows₁ : ¬Grows env s₁ := by
            rcases hfirst with hno | hfirst | hfirst | ⟨-, hfirst⟩
            · exact absurd hgrows hno
            · omega
            · omega
            · simpa only [Grows, hcalls, hend₁] using hfirst
          -- the bit of a fresh epilogue is not set
          have hstart : extensionStart s₁ = (s₁.memEnd, 0) := by
            rw [extensionStart, hshows.memEnd, hshows.tiled.epilogue]
            rfl
          refine ⟨hgrows₁, ?_⟩
          rw [hstart]
          show 0 < padding size
          omega
    obtain ⟨ptr, s', blocks', epi', lists', heq, hshows', hout, hsizes, -, hcoh, hdelivers⟩ :=
      allocate_spec hdoc hshows hsize hok
    refine ⟨ptr, s', ?_,
      Or.inr ⟨hgrows, blocks', epi', lists', hshows', hout, ?_, fun hle => ?_, hdelivers⟩⟩
    · rw [hinit]
      exact heq
    · have hone : Sorted [⟨node, 4048, [firstBlock env]⟩] := List.pairwise_singleton _ _
      rw [← hsizes, RestKnown, hfit]
      simp only [hone, and_true]
      cases fit with
      | exact _ =>
          obtain ⟨l, hl, -, hlsize, -⟩ := hfound
          rw [List.mem_singleton.mp hl] at hlsize
          have hexact : freeBlockSize = padding size := hlsize
          simp only [iff_true]
          omega
      | none =>
          simp only [iff_true]
          by_contra hlt
          cases hfound _ List.mem_cons_self (show padding size ≤ 4048 by omega)
      | best best =>
          obtain ⟨l, hl, rfl, hlt, -⟩ := hfound
          rw [List.mem_singleton.mp hl] at hlt ⊢
          simp only [hnode, hshows.listed.nodeNext_head] at hlt ⊢
          rw [hshows.listed.findSize hshows.pos (List.nil_append _).symm
            (by rw [hshows.listed.nodeCount]; omega)]
          have hpos := (padding_spec hsize).1
          have hother : ¬4048 = 4048 - padding size := by omega
          have hlarge : ¬freeBlockSize ≤ padding size := by omega
          simp [hother, hlarge]
    · exact hcoh _ false rfl rfl (by exact hle) fresh_coherent
  · have hgrow : sfMemGrow env s =
        (none, { s with growCalls := s.growCalls + 1, errno := .enomem }) :=
      if_neg hgrows
    rw [initMem, hgrow]
    exact ⟨0, _, rfl, Or.inl ⟨hgrows, rfl, hend, hlisted.congr rfl fun _ _ => rfl⟩⟩

end CSE320.Sfmm
