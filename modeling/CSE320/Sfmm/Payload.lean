import CSE320.Sfmm.Requests
import Mathlib.Tactic.IntervalCases

namespace CSE320.Sfmm

open Lib (Steps)

-- The byte at an address, the lowest one of its word first.
def byteOf (word k : Nat) : Nat := word / 256 ^ k % 256

def byteAt (s : State) (a : Nat) : Nat := byteOf (s.mem (a - a % 8)) (a % 8)

-- The two heaps hold the same bytes in an allocation of the client.
def SameBytes (s s' : State) (l : Live) : Prop :=
  ∀ i < l.size, byteAt s' (l.ptr + i) = byteAt s (l.ptr + i)

variable (env : Sfutil)

-- What sf_realloc is to return for an allocation of the client.
def Reallocates (w : World) (l : Live) (size : Nat) : Prop :=
  ∃ ptr heap, sfRealloc env w.heap l.ptr size = .ok (ptr, heap) ∧
    if size = 0 then
      ptr = 0 ∧ (heap.info (l.ptr - 8)).allocated = false
    else if ptr = 0 then
      heap.errno ≠ .unset ∧ heap.info (l.ptr - 8) = w.heap.info (l.ptr - 8) ∧
        SameBytes w.heap heap l
    else
      (firstBlock env ≤ ptr ∧ ptr < heap.memEnd) ∧ size + 8 ≤ (heap.info (ptr - 8)).size ∧
        (∀ i < min l.size size, byteAt heap (ptr + i) = byteAt w.heap (l.ptr + i)) ∧
        (ptr ≠ l.ptr → (heap.info (l.ptr - 8)).allocated = false) ∧
        ∀ l' ∈ w.live, l'.ptr ≠ l.ptr → SameBytes w.heap heap l'

-- The word that is written to the end of the part of a block that stays.
def keptFooter (size p : Nat) : Info := ⟨true, true, 0, Info.blocks p, BitVec.ofNat 32 size⟩

-- A block is not released or enlarged. If it is made smaller, the footer does not
-- change the bytes that are to stay, and the bit that is cleared in the last word of
-- an allocation behind it is not set.
def ResizeMeets (w : World) (l : Live) (size : Nat) : Prop :=
  let old := (w.heap.info (l.ptr - 8)).size
  let next := (w.heap.info (l.ptr - 8 + old)).size
  size ≠ 0 ∧ (checkPtr env w.heap l.ptr = .valid →
    toInt (padding size) ≤ old ∧ (padding size < old →
    (∀ i, padding size - 16 ≤ i → i < min l.size size →
      byteAt w.heap (l.ptr + i) =
        byteOf (keptFooter size (padding size)).toWord (i - (padding size - 16))) ∧
    ∀ l' ∈ w.live, l'.ptr = l.ptr + old → next < l'.size + 16 →
      byteAt w.heap (l'.ptr + (next - 16)) / 2 % 2 = 0))

variable {env} {s s' : State} {blocks pre post : List Blk} {b : Blk} {epi : Info}
  {lists : List SizeList} {w : World} {l : Live} {size p x word k : Nat}

theorem byteAt_word {a : Nat} (hword : word % 8 = 0) (hlow : word ≤ a) (hhigh : a < word + 8) :
    byteAt s a = byteOf (s.mem word) (a - word) := by
  rw [byteAt, show a - a % 8 = word by omega, show a % 8 = a - word by omega]

theorem toWord_setPrev :
    ((Info.ofWord word).setPrev false).toWord + 2 * (word / 2 % 2) = word % 2 ^ 64 := by
  have hbit : (word % 2 == 1).toNat = word % 2 := by
    rcases Nat.mod_two_eq_zero_or_one word with h | h <;> simp [h]
  simp only [Info.toWord, Info.setPrev, Info.ofWord, hbit, BitVec.toNat_ofNat, Bool.toNat_false]
  omega

-- Clearing the prev_allocated bit of a word changes its lowest byte only.
theorem byteOf_setPrev (hk : k < 8) :
    byteOf ((Info.ofWord word).setPrev false).toWord k = byteOf word k ↔
      (k = 0 → byteOf word 0 / 2 % 2 = 0) := by
  have hword : ((Info.ofWord word).setPrev false).toWord + 2 * (word / 2 % 2) = word % 2 ^ 64 :=
    toWord_setPrev
  generalize ((Info.ofWord word).setPrev false).toWord = cleared at hword
  simp only [byteOf]
  interval_cases k <;> omega

theorem checkPtr_oversized (h : checkPtr env s x = .oversized) :
    (s.info (x - 8)).size < ((s.info (x - 8)).requestedSize.toNat + 8) % 2 ^ 32 := by
  unfold checkPtr at h
  simp only at h
  repeat' split at h
  all_goals first
    | assumption
    | cases h

-- The words that a shrunk block and the block behind it have then.
theorem shrinkBlock_mem (s : State) (x size : Nat) {old n : Nat} (hn : (s.info (x + old)).size = n)
    (hp : 32 ≤ p) (hle : p + 32 ≤ old) :
    (∀ w, w ≠ x → w ≠ x + p - 8 → w ≠ x + p → w ≠ x + old - 8 → w ≠ x + old → w ≠ x + old + n - 8 →
      (shrinkBlock s x size old p).mem w = s.mem w) ∧
    (n = 0 ∨ 32 ≤ n → (shrinkBlock s x size old p).mem (x + p - 8) = (keptFooter size p).toWord) ∧
    (32 ≤ n → (shrinkBlock s x size old p).mem (x + old + n - 8) =
      ((s.info (x + old + n - 8)).setPrev false).toWord) := by
  have htags (w : Nat) (h₁ : w ≠ x) (h₂ : w ≠ x + p - 8) (h₃ : w ≠ x + p) (h₄ : w ≠ x + old - 8) :
      (shrinkTags s x size old p).mem w = s.mem w := by
    simp only [shrinkTags]
    rw [State.mem_setInfo_ne _ _ h₂, State.mem_setInfo_ne _ _ h₁, State.mem_setInfo_ne _ _ h₄,
      State.mem_setInfo_ne _ _ h₃]
  have hfoot : (shrinkTags s x size old p).mem (x + p - 8) = (keptFooter size p).toWord :=
    if_pos rfl
  have hnext :
      (((shrinkTags s x size old p).setInfo (x + old) (Info.setPrev false)).info (x + old)).size =
      n := by
    rw [State.info_setInfo_self, info_congr (htags _ (by omega) (by omega) (by omega) (by omega))]
    exact hn
  rw [shrinkBlock_eq size (show p ≤ old by omega), hnext]
  refine ⟨fun w h₁ h₂ h₃ h₄ h₅ h₆ => ?_, fun hn' => ?_, fun hn' => ?_⟩
  · rw [State.mem_setInfo_ne _ _ h₆, State.mem_setInfo_ne _ _ h₅]
    exact htags w h₁ h₂ h₃ h₄
  · rw [State.mem_setInfo_ne _ _ (by omega), State.mem_setInfo_ne _ _ (by omega)]
    exact hfoot
  · have hsame : ((shrinkTags s x size old p).setInfo (x + old) (Info.setPrev false)).info
        (x + old + n - 8) =
        s.info (x + old + n - 8) := by
      rw [State.info_setInfo_ne _ _ (by omega)]
      exact info_congr (htags _ (by omega) (by omega) (by omega) (by omega))
    rw [← hsame]
    exact if_pos rfl

-- The bytes that stay in the block itself: its last word becomes the footer.
theorem shrink_own_bytes {m : Nat} (hx : x % 16 = 8) (hp : 32 ≤ p) (hmod : p % 16 = 0)
    (hpad : size + 8 ≤ p) (hsame : ∀ w, x < w → w < x + p - 8 → s'.mem w = s.mem w)
    (hfoot : s'.mem (x + p - 8) = (keptFooter size p).toWord) :
    (∀ i < min m size, byteAt s' (x + 8 + i) = byteAt s (x + 8 + i)) ↔
      ∀ i, p - 16 ≤ i → i < min m size →
        byteAt s (x + 8 + i) = byteOf (keptFooter size p).toWord (i - (p - 16)) := by
  have hlast (i : Nat) (hlow : p - 16 ≤ i) (hhigh : i < min m size) :
      byteAt s' (x + 8 + i) = byteOf (keptFooter size p).toWord (i - (p - 16)) := by
    rw [byteAt_word (show (x + p - 8) % 8 = 0 by omega) (by omega) (by omega), hfoot,
      show x + 8 + i - (x + p - 8) = i - (p - 16) by omega]
  constructor
  · intro hbytes i hlow hhigh
    rw [← hlast i hlow hhigh, hbytes i hhigh]
  · intro hbytes i hhigh
    by_cases hlow : p - 16 ≤ i
    · rw [hlast i hlow hhigh, hbytes i hlow hhigh]
    · rw [byteAt, byteAt, hsame _ (by omega) (by omega)]

-- The bytes of the allocation behind the block: the bit of its last word is cleared.
theorem next_bytes {n : Nat} (hptr : l.ptr % 16 = 0) (hn : n % 16 = 0) (hmin : 32 ≤ n)
    (hfits : l.size + 8 ≤ n) (hsame : ∀ w, l.ptr ≤ w → w < l.ptr + n - 16 → s'.mem w = s.mem w)
    (hlast : s'.mem (l.ptr + n - 16) = ((s.info (l.ptr + n - 16)).setPrev false).toWord) :
    SameBytes s s' l ↔ (n < l.size + 16 → byteAt s (l.ptr + (n - 16)) / 2 % 2 = 0) := by
  have hword (t : State) (i : Nat) (hlow : n - 16 ≤ i) (hhigh : i < n - 8) :
      byteAt t (l.ptr + i) = byteOf (t.mem (l.ptr + n - 16)) (i - (n - 16)) := by
    rw [byteAt_word (show (l.ptr + n - 16) % 8 = 0 by omega) (by omega) (by omega),
      show l.ptr + i - (l.ptr + n - 16) = i - (n - 16) by omega]
  constructor
  · intro hbytes hlt
    have hfirst := hbytes (n - 16) (by omega)
    rw [hword s' _ (Nat.le_refl _) (by omega), hword s _ (Nat.le_refl _) (by omega), hlast,
      Nat.sub_self] at hfirst
    rw [hword s _ (Nat.le_refl _) (by omega), Nat.sub_self]
    exact (byteOf_setPrev (by decide)).mp hfirst rfl
  · intro hbit i hi
    by_cases hlow : n - 16 ≤ i
    · have hclear := hbit (by omega)
      rw [hword s _ (Nat.le_refl _) (by omega), Nat.sub_self] at hclear
      rw [hword s' i hlow (by omega), hword s i hlow (by omega), hlast]
      exact (byteOf_setPrev (by omega)).mpr fun _ => hclear
    · rw [byteAt, byteAt, hsame _ (by omega) (by omega)]

-- The bytes of another allocation, once the tags of a block and the two ends of the
-- block behind it are written.
theorem Shows.bytes_of_marked (hdoc : Documented env)
    (h : Shows env w.heap (pre ++ b :: post) epi lists []) (howned : Owned env w (pre ++ b :: post))
    (hx : x = firstBlock env + total pre) {t : State} {blocks' : List Blk} {n : Nat}
    (hn : (w.heap.info (x + b.size)).size = n)
    (hkeep : KeepsLabels env x (pre ++ b :: post) blocks') (hsame : SamePayloads env blocks' t s')
    (hmem : ∀ v, (v < x ∨ x + b.size < v) → v ≠ x + b.size + n - 8 → v ≠ env.memStart + 4088 →
      t.mem v = w.heap.mem v)
    (hlast : 32 ≤ n → t.mem (x + b.size + n - 8) =
      ((w.heap.info (x + b.size + n - 8)).setPrev false).toWord)
    (hl : l ∈ w.live) (hne : l.ptr ≠ x + 8) :
    SameBytes w.heap s' l ↔
      (l.ptr = x + 8 + b.size → n < l.size + 16 →
        byteAt w.heap (l.ptr + (n - 16)) / 2 % 2 = 0) := by
  obtain ⟨hptr, c, hc, halloc, hsize⟩ := howned.block l hl
  have hat := at_middle (firstBlock env) pre post b
  rw [← hx] at hat
  have hb := h.tiled.bounds hat
  have hcb := h.tiled.bounds hc
  have hymod := (h.tiled.inHeap hdoc hc).2.2
  have hbmod : b.size % 16 = 0 := Info.size_mod b.info
  have hcmod : c.size % 16 = 0 := Info.size_mod c.info
  have hapart := hat.apart hc (by omega) (by omega) (by omega)
  -- the words of the allocation are as the tags leave them
  have hinside (v : Nat) (hlow : l.ptr ≤ v) (hhigh : v < l.ptr - 8 + c.size) :
      s'.mem v = t.mem v := by
    obtain ⟨c', hc', hlabel⟩ := hkeep _ c hc halloc (by omega)
    obtain ⟨hsize', halloc'⟩ := Prod.mk.inj (shape_of_given (hlabel.trans (label_allocated halloc)))
    exact hsame _ c' hc' halloc' v (by omega) (by omega)
  by_cases hy : l.ptr = x + 8 + b.size
  · have hnc : n = c.size := by
      rw [← hn, show x + b.size = l.ptr - 8 by omega, h.tiled.header _ c hc]
      rfl
    subst hnc
    refine (next_bytes (by omega) hcmod hcb.2.2 hsize (fun v hlow hhigh => ?_) ?_).trans
      ⟨fun hbit _ => hbit, fun hbit => hbit hy⟩
    · rw [hinside v hlow (by omega)]
      exact hmem v (by omega) (by omega) (by omega)
    · rw [hinside _ (by omega) (by omega), show l.ptr + c.size - 16 =
        x + b.size + c.size - 8 by omega]
      exact hlast hcb.2.2
  · refine iff_of_true (fun i hi => ?_) fun hy' => absurd hy' hy
    -- the block behind the given one is not this one
    have hnext : l.ptr + i < x ∨ x + b.size + n ≤ l.ptr - 8 := by
      rcases hapart with hright | hleft
      · right
        rw [← hn, hx, h.tiled.info_behind]
        cases post with
        | nil =>
            rw [nextInfo, h.closed.2]
            omega
        | cons d rest =>
            have hd : At (firstBlock env) (pre ++ b :: d :: rest) (x + b.size) d :=
              hx ▸ at_second _ pre rest b d
            have hdb := h.tiled.bounds hd
            have hdsize : d.info.size = d.size := rfl
            have hapart' := hd.apart hc (by omega) (by omega) (by omega)
            rw [nextInfo, hdsize]
            omega
      · left
        omega
    rw [byteAt, byteAt, hinside _ (by omega) (by omega)]
    rw [hmem _ (by omega) (by omega) (by omega)]

-- The same, once a block is shrunk.
theorem Shows.other_bytes (hdoc : Documented env)
    (h : Shows env w.heap (pre ++ b :: post) epi lists []) (howned : Owned env w (pre ++ b :: post))
    (hx : x = firstBlock env + total pre) (hp : 32 ≤ p) (hmod : p % 16 = 0) (hle : p + 32 ≤ b.size)
    (hsame : SamePayloads env (pre ++ keptBlk size p b :: restBlk (b.size - p) post ::
      markNext false post)
      (shrinkBlock w.heap x size b.size p) s') (hl : l ∈ w.live) (hne : l.ptr ≠ x + 8) :
    SameBytes w.heap s' l ↔
      (l.ptr = x + 8 + b.size → (w.heap.info (x + b.size)).size < l.size + 16 →
      byteAt w.heap (l.ptr + ((w.heap.info (x + b.size)).size - 16)) / 2 % 2 = 0) := by
  have hb := h.tiled.bounds (at_middle (firstBlock env) pre post b)
  have hbmod : b.size % 16 = 0 := Info.size_mod b.info
  have hkept : (keptBlk size p b).size = p := taken_size size hmod (by omega) _
  have hrest : (restBlk (b.size - p) post).size = b.size - p := by
    have hinfo : (restBlk (b.size - p) post).size = (restInfo (b.size - p)).size := by
      cases post with
      | nil => rfl
      | cons d rest => rfl
    rw [hinfo, restInfo_size (by omega) (by omega)]
  have hkeep : KeepsLabels env x (pre ++ [b] ++ post)
      (pre ++ keptBlk size p b :: restBlk (b.size - p) post :: markNext false post) := by
    refine keepsLabels_of [keptBlk size p b,
      restBlk (b.size - p) post] (by simp [label_markNext]) ?_ ?_
    · simp only [total_cons, total_nil, hkept, hrest]
      omega
    · rintro y d (⟨rfl, -⟩ | hd) -
      · exact hx.symm
      · exact absurd hd id
  obtain ⟨hmem, -, hlast⟩ := shrinkBlock_mem w.heap x size rfl hp hle
  refine h.bytes_of_marked hdoc howned hx rfl (by simpa using hkeep) hsame
    (fun v hv hfoot _ => ?_) hlast hl hne
  exact hmem v (by omega) (by omega) (by omega) (by omega) (by omega) (by omega)

theorem Shows.own_bytes {m : Nat} (h : Shows env s (pre ++ b :: post) epi lists [])
    (hx : x = firstBlock env + total pre) (hp : 32 ≤ p) (hmod : p % 16 = 0) (hle : p + 32 ≤ b.size)
    (hxmod : x % 16 = 8) (hpad : size + 8 ≤ p)
    (hsame : SamePayloads env (pre ++ keptBlk size p b :: restBlk (b.size - p) post ::
      markNext false post)
      (shrinkBlock s x size b.size p) s') :
    (∀ i < min m size, byteAt s' (x + 8 + i) = byteAt s (x + 8 + i)) ↔
      ∀ i, p - 16 ≤ i → i < min m size →
        byteAt s (x + 8 + i) = byteOf (keptFooter size p).toWord (i - (p - 16)) := by
  have hb := h.tiled.bounds (at_middle (firstBlock env) pre post b)
  have hat := at_middle (firstBlock env) pre (restBlk (b.size - p) post :: markNext false post)
    (keptBlk size p b)
  rw [← hx] at hat
  have hkept : (keptBlk size p b).size = p := taken_size size hmod (by omega) _
  have hmem := shrinkBlock_mem s x size rfl hp hle
  have hinside (v : Nat) (hlow : x < v) (hhigh : v < x + p) :
      s'.mem v = (shrinkBlock s x size b.size p).mem v := hsame x _ hat rfl v hlow (by omega)
  have hnext : (s.info (x + b.size)).size = 0 ∨ 32 ≤ (s.info (x + b.size)).size := by
    rw [hx, h.tiled.info_behind]
    cases post with
    | nil => exact Or.inl h.closed.2
    | cons d rest => exact Or.inr (h.tiled.sized d (by simp))
  refine shrink_own_bytes hxmod hp hmod hpad (fun v hlow hhigh => ?_) ?_
  · rw [hinside v hlow (by omega)]
    exact hmem.1 v (by omega) (by omega) (by omega) (by omega) (by omega) (by omega)
  · rw [hinside _ (by omega) (by omega)]
    exact hmem.2.1 hnext

-- The three ways in which a call can end.
theorem reallocates_of_stop {e : Stop} (h : sfRealloc env w.heap l.ptr size = .error e) :
    ¬Reallocates env w l size := by
  rintro ⟨ptr, heap, heq, -⟩
  rw [h] at heq
  cases heq

theorem reallocates_refused_iff
    (h : sfRealloc env w.heap l.ptr size = .ok (0, { w.heap with errno := .einval }))
    (halloc : (w.heap.info (l.ptr - 8)).allocated = true) :
    Reallocates env w l size ↔ size ≠ 0 := by
  constructor
  · rintro ⟨ptr, heap, heq, hres⟩ hzero
    rw [if_pos hzero] at hres
    obtain ⟨-, rfl⟩ := Prod.mk.inj (Except.ok.inj (h.symm.trans heq))
    have hfree : (w.heap.info (l.ptr - 8)).allocated = false := hres.2
    rw [halloc] at hfree
    cases hfree
  · intro hzero
    refine ⟨0, _, h, ?_⟩
    rw [if_neg hzero, if_pos rfl]
    exact ⟨nofun, rfl, fun _ _ => rfl⟩

theorem reallocates_kept_iff (h : sfRealloc env w.heap l.ptr size = .ok (l.ptr, s'))
    (hptr : l.ptr ≠ 0) (hheap : firstBlock env ≤ l.ptr ∧ l.ptr < s'.memEnd)
    (hsize : size + 8 ≤ (s'.info (l.ptr - 8)).size) :
    Reallocates env w l size ↔ size ≠ 0 ∧
      (∀ i < min l.size size, byteAt s' (l.ptr + i) = byteAt w.heap (l.ptr + i)) ∧
      ∀ l' ∈ w.live, l'.ptr ≠ l.ptr → SameBytes w.heap s' l' := by
  constructor
  · rintro ⟨ptr, heap, heq, hres⟩
    obtain ⟨rfl, rfl⟩ := Prod.mk.inj (Except.ok.inj (h.symm.trans heq))
    by_cases hzero : size = 0
    · rw [if_pos hzero] at hres
      exact absurd hres.1 hptr
    · rw [if_neg hzero, if_neg hptr] at hres
      exact ⟨hzero, hres.2.2.1, hres.2.2.2.2⟩
  · rintro ⟨hzero, hbytes, hothers⟩
    refine ⟨l.ptr, s', h, ?_⟩
    rw [if_neg hzero, if_neg hptr]
    exact ⟨hheap, hsize, hbytes, fun hne => absurd rfl hne, hothers⟩

theorem Shows.refused (h : Shows env w.heap blocks epi lists []) (howned : Owned env w blocks)
    (hreq : Requested w) (hl : l ∈ w.live) (hno : checkPtr env w.heap l.ptr ≠ .valid) :
    sfRealloc env w.heap l.ptr size = .ok (0, { w.heap with errno := .einval }) := by
  cases hcheck : checkPtr env w.heap l.ptr with
  | valid => exact absurd hcheck hno
  | invalid =>
      rw [sfRealloc, validPtrRealloc, hcheck]
      rfl
  | oversized =>
      obtain ⟨-, b, hb, -, hsize⟩ := howned.block l hl
      have hbound := h.tiled.bounds hb
      have hlarge := checkPtr_oversized hcheck
      have hbsize : b.info.size = b.size := rfl
      rw [hreq l hl, h.tiled.header _ b hb, hbsize, BitVec.toNat_ofNat] at hlarge
      omega

-- In every state that good calls lead to, for a call that is good or enlarges the
-- block.
theorem reallocates_iff (hdoc : Documented env) {mem : Nat → Nat} {ops : List Op}
    (hrun : Steps (exec env) (Good env) (World.start env mem) ops w) (hl : l ∈ w.live)
    (hcall : ReallocOk env w.heap l.ptr size ∨
      (w.heap.info (l.ptr - 8)).size < toInt (padding size)) :
    Reallocates env w l size ↔ ResizeMeets env w l size := by
  obtain ⟨hholds, hreq⟩ := requested_of_run hdoc hrun
  cases hholds with
  | empty _ _ hlive =>
      rw [hlive] at hl
      cases hl
  | heap h howned _ =>
      obtain ⟨hptr, b, hb, halloc, hlsize⟩ := howned.block l hl
      obtain ⟨pre, post, rfl, hx⟩ := hb.split
      obtain ⟨x, hlx⟩ : ∃ x, l.ptr = x + 8 := ⟨l.ptr - 8, by omega⟩
      have hx8 : l.ptr - 8 = x := by omega
      rw [hx8] at hx hb
      have hbound := h.tiled.bounds hb
      have hmod := (h.tiled.inHeap hdoc hb).2.2
      have hinfo := h.tiled.header x b hb
      have hbsize : b.info.size = b.size := rfl
      have hheap (s' : State) (hend : s'.memEnd = env.memStart + 4096) :
          firstBlock env ≤ l.ptr ∧ l.ptr < s'.memEnd := by
        simp only [firstBlock]
        omega
      -- a payload word of another allocation is not the header of this one
      have hpayload (l' : Live) (hl' : l' ∈ w.live) (hne : l'.ptr ≠ l.ptr) (i : Nat)
          (hi : i < l'.size) :
          l'.ptr + i - (l'.ptr + i) % 8 ≠ x := by
        obtain ⟨hptr', c, hc, -, hsize⟩ := howned.block l' hl'
        have hcb := h.tiled.bounds hc
        have hymod := (h.tiled.inHeap hdoc hc).2.2
        have hapart := hb.apart hc (by omega) (by omega) (by omega)
        omega
      simp only [ResizeMeets, hx8, hinfo, hbsize] at hcall ⊢
      by_cases hvalid : checkPtr env w.heap l.ptr = .valid
      · simp only [hvalid, forall_const]
        rcases hcall with hok | hgrow
        · obtain ⟨hlimit, hcases⟩ := hok.resolve_left fun hno => hno hvalid
          obtain ⟨hmin, hpmod, hpad, -⟩ := padding_spec hlimit
          rw [hx8, hinfo, hbsize] at hcases
          have hint : toInt (padding size) = padding size := toInt_eq (by omega)
          rcases hcases with hsame | ⟨hle, hroom, hroomNext⟩
          · obtain ⟨s', b', heq, hshows, hlabel, -, hmem⟩ :=
              sfRealloc_same hdoc h hx halloc (hlx ▸ hvalid) hsame
            have hat' := at_middle (firstBlock env) pre post b'
            rw [← hx] at hat'
            have hsize' := (hshows.info_of_label hat' hlabel).1
            rw [hint, reallocates_kept_iff (hlx ▸ heq) (by omega) (hheap s' hshows.tiled.memEnd)
              (by rw [hx8, hsize']; omega)]
            refine and_congr_right fun _ => iff_of_true ⟨fun i hi => ?_, fun l' hl' hne i hi => ?_⟩
              ⟨by omega, fun hlt => by omega⟩
            · rw [byteAt, byteAt, hmem _ (by omega)]
            · rw [byteAt, byteAt, hmem _ (hpayload l' hl' hne i hi)]
          · obtain ⟨s', blocks', epi', lists', heq, hshows, -, -, -, hcut, hsame⟩ :=
              sfRealloc_shrink hdoc h hx halloc (hlx ▸ hvalid) rfl hmin hpmod hle hroom hroomNext
            obtain ⟨c, hc, hlabel⟩ := hcut.resized
            have hsize' := (hshows.info_of_label hc hlabel).1
            have hown := h.own_bytes hx hmin hpmod hle (m := l.size) hmod hpad hsame
            have hothers := fun l' hl' hne =>
              h.other_bytes hdoc howned hx hmin hpmod hle hsame (l := l') hl' hne
            rw [hint, reallocates_kept_iff (hlx ▸ heq) (by omega) (hheap s' hshows.tiled.memEnd)
              (by rw [hx8, hsize']; omega)]
            rw [hlx, hown]
            apply and_congr_right
            intro _
            constructor
            · rintro ⟨hbytes, hkept⟩
              refine ⟨by omega, fun _ => ⟨hbytes, fun l' hl' hnext => ?_⟩⟩
              have hne : l'.ptr ≠ x + 8 := by omega
              exact (hothers l' hl' hne).mp (hkept l' hl' hne) hnext
            · rintro ⟨_, hmeets⟩
              refine ⟨(hmeets (by omega)).1, fun l' hl' hne => (hothers l' hl' hne).mpr ?_⟩
              exact (hmeets (by omega)).2 l' hl'
        · have hundefined : sfRealloc env w.heap l.ptr size = .error .undefined := by
            rw [sfRealloc, validPtrRealloc, hvalid]
            simp only [Lib.ok_bind, not_true_eq_false, if_false, hx8, hinfo, hbsize, gt_iff_lt,
              if_pos hgrow]
            rfl
          refine iff_of_false (reallocates_of_stop hundefined) fun hmeets => ?_
          have hle := hmeets.2.1
          omega
      · rw [reallocates_refused_iff (h.refused howned hreq hl hvalid)
          (by rw [hx8, hinfo]; exact halloc)]
        simp [hvalid]

theorem reallocates_of_smaller : ∃ w, Steps (exec smallHeap) (Good smallHeap)
    (World.start smallHeap fun _ => 0)
    [.malloc 100] w ∧ Reallocates smallHeap w ⟨4144, 100⟩ 10 := by
  obtain ⟨w, hrun, hw⟩ := run_of smallHeap (Good smallHeap) (fun _ => 0) [.malloc 100]
    (fun w => (w.live, decide (ReallocOk smallHeap w.heap 4144 10), (w.heap.info 4136).size))
    ([⟨4144, 100⟩], true, 112) (by decide +kernel)
  obtain ⟨hlive, hok, hsize⟩ := by simpa only [Prod.mk.injEq, decide_eq_true_eq] using hw
  refine ⟨w, hrun, (reallocates_iff smallHeap_documented hrun (by simp [hlive]) (Or.inl hok)).mpr
    ?_⟩
  refine ⟨by decide, fun _ => ⟨by simp only [hsize]; decide, fun _ =>
    ⟨fun i hlow hhigh => ?_, fun l' hl' hptr => ?_⟩⟩⟩
  · -- the ten bytes that are to stay end in front of the footer
    have hpadding : padding 10 = 32 := by decide
    dsimp only at hhigh
    omega
  · have hl' : l' = ⟨4144, 100⟩ := by simpa [hlive] using hl'
    subst hl'
    simp [hsize] at hptr

-- A size of 0 is taken as the smallest one, and the block stays allocated.
theorem not_reallocates_of_zero : Documented smallHeap ∧
    ∃ w, Steps (exec smallHeap) (Good smallHeap) (World.start smallHeap fun _ => 0) [.malloc 24] w ∧
      ∃ l ∈ w.live, ¬Reallocates smallHeap w l 0 := by
  obtain ⟨w, hrun, hw⟩ := run_of smallHeap (Good smallHeap) (fun _ => 0) [.malloc 24]
    (fun w => (w.live, (sfRealloc smallHeap w.heap 4144 0).toOption.map Prod.fst))
    ([⟨4144, 24⟩], some 4144) (by decide +kernel)
  obtain ⟨hlive, hptr⟩ := Prod.mk.inj hw
  refine ⟨smallHeap_documented, w, hrun,
    ⟨4144, 24⟩, by simp [hlive], fun ⟨ptr, heap, heq, hzero⟩ => ?_⟩
  obtain ⟨rfl, -⟩ := (if_pos rfl).mp hzero
  rw [heq] at hptr
  cases hptr

end CSE320.Sfmm
