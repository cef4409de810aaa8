import CSE320.Sfmm.Invariant

namespace CSE320.Sfmm

-- The abstract heap: how long each block is and whether it is allocated.
def Blk.shape (b : Blk) : Nat × Bool := (b.size, b.info.allocated)

-- The same with the requested sizes.
def Blk.label (b : Blk) : Nat × Option (BitVec 32) :=
  (b.size, if b.info.allocated then some b.info.requestedSize else none)

-- The bit that a block behind the given ones has to have.
def allocEnd : Bool → List Blk → Bool
  | p, [] => p
  | _, b :: rest => allocEnd b.info.allocated rest

def PrevIn : Bool → List Blk → Prop
  | _, [] => True
  | p, b :: rest => b.info.prevAllocated = p ∧ PrevIn b.info.allocated rest

def FootOk (b : Blk) : Prop :=
  b.info.allocated = false → b.foot.blockSize = b.info.blockSize ∧ b.foot.allocated = false ∧
    b.foot.prevAllocated = b.info.prevAllocated

-- The boundary tags agree with each other; the first block has to have the bit p.
structure Coherent (p : Bool) (blocks : List Blk) (epi : Info) : Prop where
  prev : PrevIn p blocks
  epilogue : epi.prevAllocated = allocEnd p blocks
  feet : ∀ b ∈ blocks, FootOk b

def Sorted (lists : List SizeList) : Prop := (lists.map SizeList.size).Pairwise (· < ·)

theorem allocEnd_append (p : Bool) (first second : List Blk) :
    allocEnd p (first ++ second) = allocEnd (allocEnd p first) second := by
  induction first generalizing p with
  | nil => rfl
  | cons b rest ih => exact ih _

theorem prevIn_append {p : Bool} {first second : List Blk} :
    PrevIn p (first ++ second) ↔ PrevIn p first ∧ PrevIn (allocEnd p first) second := by
  induction first generalizing p with
  | nil => simp [PrevIn, allocEnd]
  | cons b rest ih => simp only [List.cons_append, PrevIn, ih, allocEnd, and_assoc]

theorem freeFrom_append {a x n : Nat} {first second : List Blk} :
    FreeFrom a (first ++ second) x n ↔ FreeFrom a first x n ∨
      FreeFrom (a + total first) second x n := by
  simp only [FreeFrom, at_append, or_and_right, exists_or]

theorem freeFrom_cons {a x n : Nat} {b : Blk} {rest : List Blk} :
    FreeFrom a (b :: rest) x n ↔
      (x = a ∧ b.info.allocated = false ∧ b.size = n) ∨ FreeFrom (a + b.size) rest x n := by
  simp only [FreeFrom, at_cons, or_and_right, exists_or]
  refine or_congr ⟨?_, ?_⟩ Iff.rfl
  · rintro ⟨c, ⟨rfl, rfl⟩, hc⟩
    exact ⟨rfl, hc⟩
  · rintro ⟨rfl, hb⟩
    exact ⟨b, ⟨rfl, rfl⟩, hb⟩

theorem freeFrom_nil {a x n : Nat} : ¬FreeFrom a [] x n := fun ⟨_, hb, _⟩ => hb

-- The blocks in the same places with the same shapes.
theorem At.of_shape {a x : Nat} {b : Blk} {blocks blocks' : List Blk} (h : At a blocks x b)
    (hshape : blocks'.map Blk.shape = blocks.map Blk.shape) :
    ∃ b', At a blocks' x b' ∧ b'.shape = b.shape := by
  induction blocks generalizing a blocks' with
  | nil => exact absurd h id
  | cons c rest ih =>
      obtain ⟨c', rest', rfl, hc, hrest⟩ := List.map_eq_cons_iff.mp hshape
      rcases h with ⟨rfl, rfl⟩ | h
      · exact ⟨c', Or.inl ⟨rfl, rfl⟩, hc⟩
      · obtain ⟨b', hb', hs⟩ := ih h hrest
        have hsize : c'.size = c.size := congrArg Prod.fst hc
        exact ⟨b', Or.inr (hsize ▸ hb'), hs⟩

theorem label_allocated {b : Blk} (h : b.info.allocated = true) :
    b.label = (b.size, some b.info.requestedSize) := by
  rw [Blk.label, if_pos h]

theorem shape_of_given {b : Blk} {n : Nat} {v : BitVec 32} (h : b.label = (n, some v)) :
    b.shape = (n, true) := by
  obtain ⟨hsize, hsome⟩ := Prod.mk.inj h
  cases halloc : b.info.allocated with
  | true => exact Prod.ext hsize halloc
  | false => simp [halloc] at hsome

theorem At.of_label {a x : Nat} {b : Blk} {blocks blocks' : List Blk} (h : At a blocks x b)
    (hlabel : blocks'.map Blk.label = blocks.map Blk.label) :
    ∃ b', At a blocks' x b' ∧ b'.label = b.label := by
  induction blocks generalizing a blocks' with
  | nil => exact absurd h id
  | cons c rest ih =>
      obtain ⟨c', rest', rfl, hc, hrest⟩ := List.map_eq_cons_iff.mp hlabel
      rcases h with ⟨rfl, rfl⟩ | h
      · exact ⟨c', Or.inl ⟨rfl, rfl⟩, hc⟩
      · obtain ⟨b', hb', hs⟩ := ih h hrest
        have hsize : c'.size = c.size := congrArg Prod.fst hc
        exact ⟨b', Or.inr (hsize ▸ hb'), hs⟩

theorem At.outside {a x : Nat} {c : Blk} {pre old mid post : List Blk}
    (h : At a (pre ++ old ++ post) x c) (hnot : ¬At (a + total pre) old x c)
    (htotal : total mid = total old) : At a (pre ++ mid ++ post) x c := by
  rw [at_append, at_append] at h ⊢
  rw [total_append, htotal]
  rw [total_append] at h
  rcases h with (h | h) | h
  · exact Or.inl (Or.inl h)
  · exact absurd h hnot
  · exact Or.inr h

theorem FreeFrom.of_shape {a x n : Nat} {blocks blocks' : List Blk} (h : FreeFrom a blocks x n)
    (hshape : blocks'.map Blk.shape = blocks.map Blk.shape) : FreeFrom a blocks' x n := by
  obtain ⟨b, hb, hfree, rfl⟩ := h
  obtain ⟨b', hb', hs⟩ := hb.of_shape hshape
  have hsize : b'.size = b.size := congrArg Prod.fst hs
  have halloc : b'.info.allocated = b.info.allocated := congrArg Prod.snd hs
  exact ⟨b', hb', halloc.trans hfree, hsize⟩

theorem shape_markHeader (v : Bool) (post : List Blk) :
    (markHeader v post).map Blk.shape = post.map Blk.shape := by
  cases post with
  | nil => rfl
  | cons b rest => rfl

theorem shape_markNext (v : Bool) (post : List Blk) :
    (markNext v post).map Blk.shape = post.map Blk.shape := by
  cases post with
  | nil => rfl
  | cons b rest => rfl

theorem label_markHeader (v : Bool) (post : List Blk) :
    (markHeader v post).map Blk.label = post.map Blk.label := by
  cases post with
  | nil => rfl
  | cons b rest => rfl

theorem label_markNext (v : Bool) (post : List Blk) :
    (markNext v post).map Blk.label = post.map Blk.label := by
  cases post with
  | nil => rfl
  | cons b rest => rfl

theorem markEpilogue_closed {v : Bool} {post : List Blk} {epi : Info}
    (h : epi.allocated = true ∧ epi.size = 0) :
    (markEpilogue v post epi).allocated = true ∧ (markEpilogue v post epi).size = 0 := by
  cases post with
  | nil => exact h
  | cons b rest => exact h

-- The tags behind a block follow a change of its allocated bit.
theorem coherent_markNext (b' : Blk) {p q : Bool} {pre post : List Blk} {b : Blk} {epi : Info}
    (h : Coherent p (pre ++ b :: post) epi) (hpre : PrevIn q pre)
    (hb : b'.info.prevAllocated = allocEnd q pre) (hfoot : FootOk b') :
    Coherent q (pre ++ b' :: markNext b'.info.allocated post)
      (markEpilogue b'.info.allocated post epi) := by
  obtain ⟨hprev, hepi, hfeet⟩ := h
  rw [prevIn_append] at hprev
  obtain ⟨-, -, hpost⟩ := hprev
  have hpre' (c : Blk) (hc : c ∈ pre) : FootOk c := hfeet c (List.mem_append_left _ hc)
  cases post with
  | nil =>
      refine ⟨prevIn_append.mpr ⟨hpre, hb, trivial⟩, ?_, fun c hc => ?_⟩
      · simp [markEpilogue, Info.setPrev, markNext, allocEnd_append, allocEnd]
      · rcases List.mem_append.mp hc with hc | hc
        · exact hpre' c hc
        · rw [List.mem_singleton.mp hc]
          exact hfoot
  | cons d rest =>
      refine ⟨prevIn_append.mpr ⟨hpre, hb, rfl, hpost.2⟩, ?_, fun c hc => ?_⟩
      · rw [markEpilogue, hepi]
        simp [markNext, allocEnd_append, allocEnd, Blk.setPrev, Info.setPrev]
      · simp only [markNext, List.mem_append, List.mem_cons] at hc
        rcases hc with hc | rfl | rfl | hc
        · exact hpre' c hc
        · exact hfoot
        · intro hfree
          have hd := hfeet d (by simp) hfree
          exact ⟨hd.1, hd.2.1, rfl⟩
        · exact hfeet c (by simp [hc])

variable (env : Sfutil)

-- The allocated blocks but one keep their places, sizes and requested sizes.
def KeepsLabels (x : Nat) (blocks blocks' : List Blk) : Prop :=
  ∀ y c, At (firstBlock env) blocks y c → c.info.allocated = true → y ≠ x →
    ∃ c', At (firstBlock env) blocks' y c' ∧ c'.label = c.label

variable {env}

-- A segment is cut anew that holds no other allocated block.
theorem keepsLabels_of (mid : List Blk) {x : Nat} {pre old post blocks' : List Blk}
    (hlabel : blocks'.map Blk.label = (pre ++ mid ++ post).map Blk.label)
    (htotal : total mid = total old)
    (hold : ∀ y c, At (firstBlock env + total pre) old y c → c.info.allocated = true → y = x) :
    KeepsLabels env x (pre ++ old ++ post) blocks' := by
  intro y c hc halloc hne
  exact (hc.outside (fun hin => hne (hold y c hin halloc)) htotal).of_label hlabel

theorem SamePayloads.of_keeps {s s' : State} {blocks blocks' : List Blk}
    (h : SamePayloads env blocks' s s') (hkeep : ∀ z, KeepsLabels env z blocks blocks') :
    SamePayloads env blocks s s' := by
  intro y c hc halloc w hlow hhigh
  obtain ⟨c', hc', hlabel⟩ := hkeep (y + 1) y c hc halloc (by omega)
  obtain ⟨hsize, halloc'⟩ := Prod.mk.inj (shape_of_given (hlabel.trans (label_allocated halloc)))
  exact h y c' hc' halloc' w hlow (by omega)

theorem label_at {x : Nat} {a : Blk} {pre rest blocks' : List Blk}
    (hlabel : blocks'.map Blk.label = (pre ++ a :: rest).map Blk.label)
    (hx : x = firstBlock env + total pre) :
    ∃ c, At (firstBlock env) blocks' x c ∧ c.label = a.label :=
  hx ▸ (at_middle (firstBlock env) pre rest a).of_label hlabel

variable {s s' : State} {blocks blocks' pre old post : List Blk} {epi epi' : Info}
  {lists : List SizeList} {out : List Nat}

namespace Shows

-- Tags that say nothing about sizes and the allocated bits may change.
theorem reshape (h : Shows env s blocks epi lists out) (htiled : Tiled env s' blocks' epi')
    (hlisted : Listed env s' lists) (hshape : blocks'.map Blk.shape = blocks.map Blk.shape)
    (hepi : epi'.allocated = true ∧ epi'.size = 0) : Shows env s' blocks' epi' lists out := by
  refine ⟨htiled, hlisted, fun x n => ?_, h.sizes, h.whole, hepi⟩
  rw [h.free]
  exact and_congr_left fun _ =>
    ⟨fun hx => FreeFrom.of_shape hx hshape, fun hx => FreeFrom.of_shape hx hshape.symm⟩

theorem same (h : Shows env s blocks epi lists out) (hmem : s'.mem = s.mem)
    (hend : s'.memEnd = s.memEnd) (hnodes : s'.nodes = s.nodes) :
    Shows env s' blocks epi lists out :=
  h.reshape (h.tiled.congr hend fun w _ => by rw [hmem])
    (h.listed.congr hnodes fun w _ => by rw [hmem])
    rfl h.closed

-- Writes inside a block that is in no list do not reach the lists.
theorem listed_inside {x : Nat} {b : Blk} (hdoc : Documented env)
    (h : Shows env s blocks epi lists out) (hx : At (firstBlock env) blocks x b)
    (hno : ∀ n, ¬On lists x n) (hnodes : s'.nodes = s.nodes)
    (hsame : ∀ w, (w < x ∨ x + b.size ≤ w) → s'.mem w = s.mem w) : Listed env s' lists := by
  refine h.listed.congr hnodes fun w hw => hsame w ?_
  by_contra hin
  exact h.no_link hdoc hx (Or.inr (Or.inr ⟨by omega, by omega, hno⟩)) hw

-- A segment of the heap is cut anew. The blocks that are out of the lists are in
-- the segment, before and after.
theorem replaced (new : List Blk) (out' : List Nat)
    (h : Shows env s (pre ++ old ++ post) epi lists out)
    (htiled : Tiled env s' (pre ++ new ++ post) epi') (hlisted : Listed env s' lists)
    (htotal : total new = total old) (hepi : epi'.allocated = true ∧ epi'.size = 0)
    (hin : ∀ y ∈ out ++ out', firstBlock env + total pre ≤ y ∧
      y < firstBlock env + total pre + total old) (hfree :
      ∀ y m, FreeFrom (firstBlock env + total pre) old y m ∧ y ∉ out ↔
      FreeFrom (firstBlock env + total pre) new y m ∧ y ∉ out') :
    Shows env s' (pre ++ new ++ post) epi' lists out' := by
  refine ⟨htiled, hlisted, fun y m => ?_, h.sizes, h.whole, hepi⟩
  have hparts : ∀ (mid : List Blk) (hmid : total mid = total old) (hsized : ∀ b ∈ pre, 32 ≤ b.size)
      (gone : List Nat) (hgone : ∀ y ∈ gone, y ∈ out ++ out'),
      (FreeAt env (pre ++ mid ++ post) y m ∧ y ∉ gone ↔ FreeFrom (firstBlock env) pre y m ∨
        (FreeFrom (firstBlock env + total pre) mid y m ∧ y ∉ gone) ∨
        FreeFrom (firstBlock env + total pre + total old) post y m) := by
    intro mid hmid hsized gone hgone
    have hsplit : FreeAt env (pre ++ mid ++ post) y m ↔ FreeFrom (firstBlock env) pre y m ∨
        FreeFrom (firstBlock env + total pre) mid y m ∨
        FreeFrom (firstBlock env + total pre + total old) post y m := by
      rw [show FreeAt env (pre ++ mid ++ post) y m =
        FreeFrom (firstBlock env) (pre ++ mid ++ post) y m from rfl, freeFrom_append,
        freeFrom_append, total_append, hmid, or_assoc, Nat.add_assoc]
    rw [hsplit]
    have hbefore : FreeFrom (firstBlock env) pre y m → y ∉ gone := by
      rintro ⟨c, hc, -⟩ hy
      have hb := hc.bounds
      have hs := hsized c hc.mem
      have hy' := hin y (hgone y hy)
      omega
    have hafter : FreeFrom (firstBlock env + total pre + total old) post y m → y ∉ gone := by
      rintro ⟨c, hc, -⟩ hy
      have hb := hc.bounds
      have hy' := hin y (hgone y hy)
      omega
    tauto
  have hsized (b : Blk) (hb : b ∈ pre) : 32 ≤ b.size := h.tiled.sized b (by simp [hb])
  rw [h.free, hparts old rfl hsized out (fun y hy => List.mem_append_left _ hy),
    hparts new htotal hsized out' (fun y hy => List.mem_append_right _ hy), hfree]

end Shows

end CSE320.Sfmm
