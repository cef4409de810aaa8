import CSE320.Lib.Ring
import CSE320.Sfmm.Client

namespace CSE320.Sfmm

-- A block as its header says it is. The second word is the footer, which counts
-- only while the block is free.
structure Blk where
  info : Info
  foot : Info

def Blk.size (b : Blk) : Nat := b.info.size

-- One node of the list of sizes with the blocks that are linked to it.
structure SizeList where
  node : Nat
  size : Nat
  members : List Nat

-- Where the blocks of a sequence that starts at a are.
def At : Nat → List Blk → Nat → Blk → Prop
  | _, [], _, _ => False
  | a, b :: rest, x, c => (x = a ∧ c = b) ∨ At (a + b.size) rest x c

def total (blocks : List Blk) : Nat := (blocks.map Blk.size).sum

@[simp] theorem total_nil : total [] = 0 := rfl

@[simp] theorem total_cons (b : Blk) (rest : List Blk) :
    total (b :: rest) = b.size + total rest := by
  simp [total]

@[simp] theorem total_append (first second : List Blk) :
    total (first ++ second) = total first + total second := by
  simp [total]

theorem total_mod (blocks : List Blk) : total blocks % 16 = 0 := by
  induction blocks with
  | nil => rfl
  | cons b rest ih =>
      have hb : b.size % 16 = 0 := Info.size_mod b.info
      rw [total_cons]
      omega

theorem at_append {a x : Nat} {c : Blk} {first second : List Blk} :
    At a (first ++ second) x c ↔ At a first x c ∨ At (a + total first) second x c := by
  induction first generalizing a with
  | nil => simp [At]
  | cons b rest ih =>
      simp only [List.cons_append, At, ih, total_cons, or_assoc, Nat.add_assoc]

theorem at_cons {a x : Nat} {b c : Blk} {rest : List Blk} :
    At a (b :: rest) x c ↔ (x = a ∧ c = b) ∨ At (a + b.size) rest x c := Iff.rfl

theorem at_middle (a : Nat) (first second : List Blk) (b : Blk) :
    At a (first ++ b :: second) (a + total first) b :=
  at_append.mpr (Or.inr (Or.inl ⟨rfl, rfl⟩))

theorem at_second (a : Nat) (first rest : List Blk) (b c : Blk) :
    At a (first ++ b :: c :: rest) (a + total first + b.size) c :=
  at_append.mpr (Or.inr (Or.inr (Or.inl ⟨rfl, rfl⟩)))

theorem At.bounds {a x : Nat} {c : Blk} {blocks : List Blk} (h : At a blocks x c) :
    a ≤ x ∧ x + c.size ≤ a + total blocks := by
  induction blocks generalizing a with
  | nil => exact absurd h id
  | cons b rest ih =>
      rw [total_cons]
      rcases h with ⟨rfl, rfl⟩ | h
      · omega
      · have hrest := ih h
        omega

theorem At.mem {a x : Nat} {c : Blk} {blocks : List Blk} (h : At a blocks x c) : c ∈ blocks := by
  induction blocks generalizing a with
  | nil => exact absurd h id
  | cons b rest ih =>
      rcases h with ⟨-, rfl⟩ | h
      · exact List.mem_cons_self
      · exact List.mem_cons_of_mem _ (ih h)

theorem At.split {a x : Nat} {c : Blk} {blocks : List Blk} (h : At a blocks x c) :
    ∃ first second, blocks = first ++ c :: second ∧ x = a + total first := by
  induction blocks generalizing a with
  | nil => exact absurd h id
  | cons b rest ih =>
      rcases h with ⟨rfl, rfl⟩ | h
      · exact ⟨[], rest, rfl, rfl⟩
      · obtain ⟨first, second, rfl, rfl⟩ := ih h
        exact ⟨b :: first, second, rfl, by rw [total_cons, Nat.add_assoc]⟩

theorem At.mod {a x : Nat} {c : Blk} {blocks : List Blk} (h : At a blocks x c) :
    x % 16 = a % 16 := by
  obtain ⟨first, second, -, rfl⟩ := h.split
  have hfirst := total_mod first
  omega

-- Two blocks that share an address are the same block.
theorem At.unique {a x y w : Nat} {c d : Blk} {blocks : List Blk} (hx : At a blocks x c)
    (hy : At a blocks y d) (hxw : x ≤ w ∧ w < x + c.size) (hyw : y ≤ w ∧ w < y + d.size) :
    x = y ∧ c = d := by
  induction blocks generalizing a with
  | nil => exact absurd hx id
  | cons b rest ih =>
      rcases hx with ⟨rfl, rfl⟩ | hx <;> rcases hy with ⟨rfl, rfl⟩ | hy
      · exact ⟨rfl, rfl⟩
      · have hb := hy.bounds
        omega
      · have hb := hx.bounds
        omega
      · exact ih hx hy

variable (env : Sfutil)

-- The memory around the heap, as the documentation of sfutil promises it: the
-- heap is aligned, the nodes are apart from it and from each other, and a new
-- node is always handed out.
structure Documented : Prop where
  aligned : env.memStart % 16 = 0
  slotAligned : ∀ k, env.slot k % 8 = 0
  slotAway : ∀ k, env.slot k + 48 ≤ env.memStart ∨ env.memStart + 4096 ≤ env.slot k
  slotApart : ∀ j k, j ≠ k → env.slot j + 48 ≤ env.slot k ∨ env.slot k + 48 ≤ env.slot j
  adds : ∀ k, env.adds k = true

-- The headers, footers and the epilogue of a heap of one page.
structure Tiled (s : State) (blocks : List Blk) (epi : Info) : Prop where
  memEnd : s.memEnd = env.memStart + 4096
  total : total blocks = 4048
  sized : ∀ b ∈ blocks, 32 ≤ b.size
  header : ∀ x b, At (firstBlock env) blocks x b → s.info x = b.info
  footer : ∀ x b, At (firstBlock env) blocks x b → b.info.allocated = false →
    s.info (x + b.size - 8) = b.foot
  epilogue : s.info (env.memStart + 4088) = epi

-- A word that one of these facts is about.
def Tagged (blocks : List Blk) (w : Nat) : Prop :=
  w = env.memStart + 4088 ∨ ∃ x b, At (firstBlock env) blocks x b ∧
    (w = x ∨ (b.info.allocated = false ∧ w = x + b.size - 8))

variable {env} {s s' : State} {blocks : List Blk} {epi : Info}

theorem Tiled.bounds (h : Tiled env s blocks epi) {x : Nat} {b : Blk}
    (hx : At (firstBlock env) blocks x b) :
    env.memStart + 40 ≤ x ∧ x + b.size ≤ env.memStart + 4088 ∧ 32 ≤ b.size := by
  have hb := hx.bounds
  have ht := h.total
  have hs := h.sized b hx.mem
  simp only [firstBlock] at hb
  omega

theorem info_congr {a : Nat} (h : s'.mem a = s.mem a) : s'.info a = s.info a := by
  rw [State.info, State.info, h]

theorem Tiled.congr (h : Tiled env s blocks epi) (hend : s'.memEnd = s.memEnd)
    (hsame : ∀ w, Tagged env blocks w → s'.mem w = s.mem w) : Tiled env s' blocks epi := by
  refine ⟨hend.trans h.memEnd, h.total, h.sized, fun x b hx => ?_, fun x b hx hfree => ?_, ?_⟩
  · rw [info_congr (hsame x (Or.inr ⟨x, b, hx, Or.inl rfl⟩))]
    exact h.header x b hx
  · rw [info_congr (hsame _ (Or.inr ⟨x, b, hx, Or.inr ⟨hfree, rfl⟩⟩))]
    exact h.footer x b hx hfree
  · rw [info_congr (hsame _ (Or.inl rfl))]
    exact h.epilogue

-- Inside a block only the header is tagged, and the last word while it is free.
theorem Tiled.not_tagged (h : Tiled env s blocks epi) {x w : Nat} {b : Blk}
    (hx : At (firstBlock env) blocks x b) (hin : x < w ∧ w < x + b.size)
    (hlast : b.info.allocated = false → w ≠ x + b.size - 8) : ¬Tagged env blocks w := by
  have hbx := h.bounds hx
  rintro (rfl | ⟨y, c, hy, rfl | ⟨hfree, rfl⟩⟩)
  · omega
  · have hby := h.bounds hy
    have hsame := hx.unique hy ⟨hin.1.le, hin.2⟩ (by omega)
    omega
  · have hby := h.bounds hy
    obtain ⟨rfl, rfl⟩ := hx.unique hy ⟨hin.1.le, hin.2⟩ (by omega)
    exact hlast hfree rfl

theorem Tiled.not_tagged_of_away (h : Tiled env s blocks epi) {w : Nat}
    (haway : w < env.memStart + 40 ∨ env.memStart + 4096 ≤ w) : ¬Tagged env blocks w := by
  rintro (rfl | ⟨y, c, hy, rfl | ⟨hfree, rfl⟩⟩)
  · omega
  · have hby := h.bounds hy
    omega
  · have hby := h.bounds hy
    omega

-- A segment of the heap is rewritten, and nothing that counts outside it changes.
theorem Tiled.replace {pre old new post : List Blk} (h : Tiled env s (pre ++ old ++ post) epi)
    (hend : s'.memEnd = s.memEnd) (htotal : Sfmm.total new = Sfmm.total old)
    (hsized : ∀ b ∈ new, 32 ≤ b.size)
    (hout : ∀ w, (w < firstBlock env + Sfmm.total pre ∨
      firstBlock env + Sfmm.total pre + Sfmm.total old ≤ w) → s'.mem w = s.mem w)
    (hnew : ∀ x b, At (firstBlock env + Sfmm.total pre) new x b →
      s'.info x = b.info ∧ (b.info.allocated = false → s'.info (x + b.size - 8) = b.foot)) :
    Tiled env s' (pre ++ new ++ post) epi := by
  have hall := h.total
  simp only [total_append] at hall
  have hcases (x : Nat) (b : Blk) (hx : At (firstBlock env) (pre ++ new ++ post) x b) :
      s'.info x = b.info ∧ (b.info.allocated = false → s'.info (x + b.size - 8) = b.foot) := by
    have hkeep (hx' : At (firstBlock env) (pre ++ old ++ post) x b)
        (hw : x + b.size ≤ firstBlock env + Sfmm.total pre ∨
          firstBlock env + Sfmm.total pre + Sfmm.total old ≤ x) :
        s'.info x = b.info ∧ (b.info.allocated = false → s'.info (x + b.size - 8) = b.foot) := by
      have hsize := (h.bounds hx').2.2
      rw [info_congr (hout x (by omega)), info_congr (hout (x + b.size - 8) (by omega))]
      exact ⟨h.header x b hx', h.footer x b hx'⟩
    rw [at_append, at_append] at hx
    rcases hx with (hx | hx) | hx
    · exact hkeep (at_append.mpr (Or.inl (at_append.mpr (Or.inl hx)))) (Or.inl hx.bounds.2)
    · exact hnew x b hx
    · have hb := hx.bounds
      rw [total_append, htotal] at hx hb
      refine hkeep (at_append.mpr (Or.inr ?_)) (Or.inr (by omega))
      rwa [total_append]
  refine ⟨hend.trans h.memEnd, ?_, fun b hb => ?_, fun x b hx => (hcases x b hx).1,
    fun x b hx => (hcases x b hx).2, ?_⟩
  · simp only [total_append]
    omega
  · rw [List.mem_append, List.mem_append] at hb
    rcases hb with (hb | hb) | hb
    · exact h.sized b (List.mem_append_left _ (List.mem_append_left _ hb))
    · exact hsized b hb
    · exact h.sized b (List.mem_append_right _ hb)
  · rw [info_congr (hout _ _)]
    · exact h.epilogue
    · simp only [firstBlock]
      omega

end CSE320.Sfmm
