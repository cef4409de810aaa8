import CSE320.Sfmm.Frame

namespace CSE320.Sfmm

open Lib (Steps)

-- What the client has stored, by the pointer of the allocation and the offset in it.
abbrev Contents := Nat → Nat → Option (BitVec 8)

def within (live : List Live) (ptr i : Nat) : Bool := live.any fun l => l.ptr = ptr && i < l.size

-- The abstract store. A store changes one byte, and any other call keeps what was and
-- is in an allocation.
def Contents.step (c : Contents) (before after : List Live) : Op → Contents
  | .store ptr offset byte => fun p i => if p = ptr ∧ i = offset then some byte else c p i
  | _ => fun p i => if within before p i && within after p i then c p i else none

-- The heap next to what it is to contain.
structure Filled where
  world : World
  contents : Contents

def Filled.start (env : Sfutil) (mem : Nat → Nat) : Filled := ⟨World.start env mem, fun _ _ => none⟩

def Filled.exec (env : Sfutil) (f : Filled) (op : Op) : Except Stop Filled := do
  let world ← Sfmm.exec env f.world op
  return ⟨world, f.contents.step f.world.live world.live op⟩

-- The client reads what it has stored.
def Filled.Reads (f : Filled) : Prop :=
  ∀ l ∈ f.world.live, ∀ i < l.size, ∀ byte, f.contents l.ptr i = some byte →
    byteAt f.world.heap (l.ptr + i) = byte.toNat

-- The bytes of the allocations are as before the call.
def Kept (w w' : World) : Prop :=
  ∀ l ∈ w.live, ∀ l' ∈ w'.live, l'.ptr = l.ptr → ∀ i < min l.size l'.size,
    byteAt w'.heap (l.ptr + i) = byteAt w.heap (l.ptr + i)

-- The bit that is cleared in the last word of the block behind is not set, where an
-- allocation uses that word.
def SparesNext (w : World) (ptr : Nat) : Prop :=
  let old := (w.heap.info (ptr - 8)).size
  let next := (w.heap.info (ptr - 8 + old)).size
  ∀ l ∈ w.live, l.ptr = ptr + old → next < l.size + 16 →
    byteAt w.heap (l.ptr + (next - 16)) / 2 % 2 = 0

-- The footer of a shrunk block is what its last word holds anyway.
def SparesOwn (w : World) (ptr size : Nat) : Prop :=
  ∀ l ∈ w.live, l.ptr = ptr → ∀ i, padding size - 16 ≤ i → i < min l.size size →
    byteAt w.heap (ptr + i) =
      byteOf (keptFooter size (padding size)).toWord (i - (padding size - 16))

def Spares (env : Sfutil) (w : World) : Op → Prop
  | .free ptr => SparesNext w ptr
  | .realloc ptr size =>
    checkPtr env w.heap ptr = .valid → padding size < (w.heap.info (ptr - 8)).size →
      SparesOwn w ptr size ∧ SparesNext w ptr
  | _ => True

instance decidableSparesNext (w : World) (ptr : Nat) : Decidable (SparesNext w ptr) :=
  inferInstanceAs (Decidable (∀ l ∈ w.live, _ → _ → _))

instance decidableSparesOwn (w : World) (ptr size : Nat) : Decidable (SparesOwn w ptr size) :=
  inferInstanceAs (Decidable (∀ l ∈ w.live, _ → ∀ _, _ → _ → _))

instance decidableSpares (env : Sfutil) (w : World) (op : Op) : Decidable (Spares env w op) :=
  match op with
  | .malloc _ => .isTrue trivial
  | .free ptr => inferInstanceAs (Decidable (SparesNext w ptr))
  | .realloc ptr size =>
    inferInstanceAs (Decidable (_ → _ → SparesOwn w ptr size ∧ SparesNext w ptr))
  | .store _ _ _ => .isTrue trivial

variable {env : Sfutil} {w w' : World} {blocks : List Blk} {epi : Info} {lists : List SizeList}
  {l : Live} {op : Op} {mem : Nat → Nat} {ops : List Op}

theorem within_iff {live : List Live} {ptr i : Nat} :
    within live ptr i = true ↔ ∃ l ∈ live, l.ptr = ptr ∧ i < l.size := by
  simp [within]

-- The words of an allocation are payload.
theorem Owned.byteAt_eq (hdoc : Documented env) (ht : Tiled env w.heap blocks epi)
    (howned : Owned env w blocks) {s' : State} (h : SamePayloads env blocks w.heap s')
    (hl : l ∈ w.live) : SameBytes w.heap s' l := by
  intro i hi
  obtain ⟨hptr, c, hc, halloc, hsize⟩ := howned.block l hl
  have hmod := (ht.inHeap hdoc hc).2.2
  rw [byteAt, byteAt, h _ c hc halloc _ (by omega) (by omega)]

theorem Owned.unique (howned : Owned env w blocks) {l' : Live} (hl : l ∈ w.live)
    (hl' : l' ∈ w.live) (hptr : l'.ptr = l.ptr) : l' = l :=
  List.inj_on_of_nodup_map howned.nodup hl' hl hptr

theorem kept_of_sameBytes (h : ∀ l ∈ w.live, SameBytes w.heap w'.heap l) : Kept w w' :=
  fun l hl _ _ _ i hi => h l hl i (by omega)

-- An allocation of the client before and after the call is the same one, or was resized.
theorem kept_free_iff {s' : State} {ptr : Nat} (howned : Owned env w blocks) :
    Kept w ⟨s', w.live.filter (·.ptr ≠ ptr)⟩ ↔
      ∀ l ∈ w.live, l.ptr ≠ ptr → SameBytes w.heap s' l := by
  constructor
  · intro h l hl hne i hi
    exact h l hl l (List.mem_filter.mpr ⟨hl, decide_eq_true hne⟩) rfl i (by omega)
  · intro h l hl l' hl' hptr i hi
    obtain ⟨hl', hne⟩ := List.mem_filter.mp hl'
    rw [howned.unique hl hl' hptr] at hne
    exact h l hl (of_decide_eq_true hne) i (by omega)

theorem kept_realloc_iff {s' : State} {size : Nat} (howned : Owned env w blocks) (hl : l ∈ w.live) :
    Kept w ⟨s', ⟨l.ptr, size⟩ :: w.live.filter (·.ptr ≠ l.ptr)⟩ ↔
      (∀ i < min l.size size, byteAt s' (l.ptr + i) = byteAt w.heap (l.ptr + i)) ∧
        ∀ l' ∈ w.live, l'.ptr ≠ l.ptr → SameBytes w.heap s' l' := by
  constructor
  · intro h
    refine ⟨h l hl _ List.mem_cons_self rfl, (kept_free_iff howned).mp fun l₁ hl₁ l' hl' => ?_⟩
    exact h l₁ hl₁ l' (List.mem_cons_of_mem _ hl')
  · rintro ⟨hown, hothers⟩ l₁ hl₁ l' hl' hptr i hi
    rcases List.mem_cons.mp hl' with rfl | hl'
    · rw [howned.unique hl hl₁ hptr.symm] at hi ⊢
      exact hown i hi
    · exact (kept_free_iff howned).mpr hothers l₁ hl₁ l' hl' hptr i hi

-- sf_malloc keeps every byte.
theorem kept_malloc {size : Nat} (hdoc : Documented env) (h : Shows env w.heap blocks epi lists [])
    (howned : Owned env w blocks) (hok : MallocOk env w.heap size)
    (hexec : exec env w (.malloc size) = .ok w') : Kept w w' := by
  have hne : env.memStart ≠ w.heap.memEnd := by
    rw [h.tiled.memEnd]
    omega
  by_cases hzero : size = 0
  · have hnull : sfMalloc env w.heap size = .ok (0, w.heap) := by rw [sfMalloc, if_pos hzero]
    obtain rfl := Except.ok.inj ((exec_malloc hnull).symm.trans hexec)
    exact kept_of_sameBytes fun _ _ _ _ => rfl
  · obtain ⟨hsize, hfit⟩ := hok.resolve_left hzero
    rw [if_neg hne] at hfit
    obtain ⟨ptr, s', -, -, -, heq, -⟩ := allocate_spec hdoc h hsize hfit
    have hcall : sfMalloc env w.heap size = .ok (ptr, s') := by
      rw [sfMalloc, if_neg hzero, if_neg hne, heq]
    obtain rfl := Except.ok.inj ((exec_malloc hcall).symm.trans hexec)
    have hsame := allocate_payloads hdoc h hsize hfit heq
    exact kept_of_sameBytes fun l hl => howned.byteAt_eq hdoc h.tiled hsame hl

theorem sparesNext_iff {x n : Nat} (hsize : (w.heap.info x).size = n) :
    SparesNext w (x + 8) ↔ ∀ l ∈ w.live, l.ptr = x + 8 + n →
      (w.heap.info (x + n)).size < l.size + 16 →
        byteAt w.heap (l.ptr + ((w.heap.info (x + n)).size - 16)) / 2 % 2 = 0 := by
  simp only [SparesNext, Nat.add_sub_cancel, hsize]

theorem kept_free (hdoc : Documented env) (h : Shows env w.heap blocks epi lists [])
    (howned : Owned env w blocks) (hl : l ∈ w.live) (hok : FreeOk env w.heap l.ptr)
    (hexec : exec env w (.free l.ptr) = .ok w') : Kept w w' ↔ SparesNext w l.ptr := by
  obtain ⟨hptr, b, hb, halloc, -⟩ := howned.block l hl
  obtain ⟨pre, post, rfl, hx⟩ := hb.split
  obtain ⟨x, hlx⟩ : ∃ x, l.ptr = x + 8 := ⟨l.ptr - 8, by omega⟩
  have hx8 : l.ptr - 8 = x := by omega
  rw [hx8] at hx hb
  obtain ⟨s', heq, hrun⟩ : ∃ s', sfFree env w.heap l.ptr = .ok s' ∧
      w' = ⟨s', w.live.filter (·.ptr ≠ l.ptr)⟩ := by
    cases hcall : sfFree env w.heap l.ptr with
    | error e =>
        rw [exec, hcall] at hexec
        cases hexec
    | ok s' => exact ⟨s', rfl, Except.ok.inj (hexec.symm.trans (exec_free hcall))⟩
  subst hrun
  have hsame := sfFree_payloads hdoc h hx halloc (hlx ▸ hok) (hlx ▸ heq)
  obtain ⟨hmem, hlast⟩ := markFree_mem h hx (n := (w.heap.info (x + b.size)).size) rfl
  have hkeep : KeepsLabels env x (pre ++ [b] ++ post) (pre ++ freed b :: markNext false post) :=
    keepsLabels_of [freed b] (by simp [label_markNext]) rfl fun y c hin _ => by
      rcases hin with ⟨hy, -⟩ | hin
      · rw [hx, hy]
      · exact absurd hin id
  have hsize : (w.heap.info x).size = b.size := by
    rw [h.tiled.header x b hb]
    rfl
  have hothers (l' : Live) (hl' : l' ∈ w.live) (hne : l'.ptr ≠ x + 8) :=
    h.bytes_of_marked hdoc howned hx rfl (by simpa using hkeep) hsame hmem hlast hl' hne
  rw [kept_free_iff howned, hlx, sparesNext_iff hsize]
  have hbound := h.tiled.bounds hb
  constructor
  · intro hkept l' hl' hnext
    exact (hothers l' hl' (by omega)).mp (hkept l' hl' (by omega)) hnext
  · intro hspares l' hl' hne
    exact (hothers l' hl' hne).mpr (hspares l' hl')

theorem kept_realloc {size : Nat} (hdoc : Documented env)
    (h : Shows env w.heap blocks epi lists []) (howned : Owned env w blocks) (hreq : Requested w)
    (hl : l ∈ w.live) (hok : ReallocOk env w.heap l.ptr size)
    (hexec : exec env w (.realloc l.ptr size) = .ok w') :
    Kept w w' ↔ Spares env w (.realloc l.ptr size) := by
  obtain ⟨hptr, b, hb, halloc, hlsize⟩ := howned.block l hl
  obtain ⟨pre, post, rfl, hx⟩ := hb.split
  obtain ⟨x, hlx⟩ : ∃ x, l.ptr = x + 8 := ⟨l.ptr - 8, by omega⟩
  have hx8 : l.ptr - 8 = x := by omega
  rw [hx8] at hx hb
  have hbound := h.tiled.bounds hb
  have hmod := (h.tiled.inHeap hdoc hb).2.2
  have hsize : (w.heap.info x).size = b.size := by
    rw [h.tiled.header x b hb]
    rfl
  by_cases hvalid : checkPtr env w.heap l.ptr = .valid
  · obtain ⟨hlimit, hcases⟩ := hok.resolve_left fun hno => hno hvalid
    obtain ⟨hmin, hpmod, hpad, -⟩ := padding_spec hlimit
    rw [hx8, hsize] at hcases
    simp only [Spares, hvalid, forall_const, hx8, hsize]
    rcases hcases with hsame | ⟨hle, hroom, hroomNext⟩
    · obtain ⟨s', b', heq, -, -, -, hmem⟩ :=
        sfRealloc_same hdoc h hx halloc (hlx ▸ hvalid) hsame
      rw [← hlx] at heq
      obtain rfl := Except.ok.inj ((exec_realloc heq).symm.trans hexec)
      rw [if_neg (by omega), kept_realloc_iff howned hl]
      have hheader : SamePayloads env (pre ++ b :: post) w.heap s' :=
        samePayloads_of fun v hv => by
          by_cases hvx : v = x
          · exact hvx ▸ h.tiled.header_notPayload hb
          · exact absurd (hmem v hvx) hv
      refine iff_of_true ⟨fun i hi => ?_, fun l' hl' _ => ?_⟩ fun hlt => by omega
      · exact howned.byteAt_eq hdoc h.tiled hheader hl i (by omega)
      · exact howned.byteAt_eq hdoc h.tiled hheader hl'
    · obtain ⟨s', -, -, -, heq, -, -, -, -, -, hsame⟩ :=
        sfRealloc_shrink hdoc h hx halloc (hlx ▸ hvalid) rfl hmin hpmod hle hroom hroomNext
      rw [← hlx] at heq
      obtain rfl := Except.ok.inj ((exec_realloc heq).symm.trans hexec)
      have hown := h.own_bytes hx hmin hpmod hle (m := l.size) hmod hpad hsame
      have hothers (l' : Live) (hl' : l' ∈ w.live) (hne : l'.ptr ≠ x + 8) :=
        h.other_bytes hdoc howned hx hmin hpmod hle hsame hl' hne
      have hcut : padding size < b.size := by omega
      rw [if_neg (by omega), kept_realloc_iff howned hl, hlx, hown, sparesNext_iff hsize]
      simp only [hcut, forall_const]
      refine and_congr ⟨fun h l' hl' hptr' => ?_, fun h => ?_⟩ ⟨fun h l' hl' hnext => ?_,
        fun h l' hl' hne => (hothers l' hl' hne).mpr (h l' hl')⟩
      · rwa [howned.unique hl hl' (hptr'.trans hlx.symm)]
      · exact h l hl hlx
      · exact (hothers l' hl' (by omega)).mp (h l' hl' (by omega)) hnext
  · -- a call that is refused changes nothing
    have hrefused : sfRealloc env w.heap l.ptr size = .ok (0, { w.heap with errno := .einval }) :=
      h.refused howned hreq hl hvalid
    obtain rfl := Except.ok.inj ((exec_realloc hrefused).symm.trans hexec)
    exact iff_of_true (kept_of_sameBytes fun _ _ _ _ => rfl) fun h => absurd h hvalid

-- The heaps that good calls lead to.
def Reachable (env : Sfutil) (w : World) : Prop := Holds env (fun _ _ _ => True) w ∧ Requested w

theorem Reachable.step (hdoc : Documented env) (h : Reachable env w) (hgood : Good env w op)
    (hexec : exec env w op = .ok w') : Reachable env w' := by
  obtain ⟨hholds, hreq⟩ := h
  refine ⟨Holds.step hdoc hgood (fun _ _ _ _ _ _ => trivial) (fun _ _ _ _ _ _ _ _ => trivial)
    hexec hholds, ?_⟩
  cases hholds with
  | empty hend hlisted hlive => exact .first hdoc hend hlisted hlive hgood hexec
  | heap hshows howned _ => exact hreq.step hdoc hshows howned hgood hexec

theorem Reachable.kept (hdoc : Documented env) (h : Reachable env w) (hgood : Good env w op)
    (hexec : exec env w op = .ok w') (hop : ∀ ptr offset byte, op ≠ .store ptr offset byte) :
    Kept w w' ↔ Spares env w op := by
  obtain ⟨hholds, hreq⟩ := h
  obtain ⟨hallowed, hok⟩ := hgood
  cases hholds with
  | empty _ _ hlive =>
      have hnone (l : Live) : l ∉ w.live := by simp [hlive]
      refine iff_of_true (fun l hl => absurd hl (hnone l)) ?_
      cases op with
      | malloc size => trivial
      | free ptr => exact fun l hl => absurd hl (hnone l)
      | realloc ptr size =>
          exact fun _ _ => ⟨fun l hl => absurd hl (hnone l), fun l hl => absurd hl (hnone l)⟩
      | store ptr offset byte => trivial
  | heap h howned _ =>
      cases op with
      | malloc size => exact iff_of_true (kept_malloc hdoc h howned hok hexec) trivial
      | free ptr =>
          obtain ⟨l, hl, rfl⟩ := hallowed
          exact kept_free hdoc h howned hl hok hexec
      | realloc ptr size =>
          obtain ⟨-, l, hl, rfl⟩ := hallowed
          exact kept_realloc hdoc h howned hreq hl hok hexec
      | store ptr offset byte => exact absurd rfl (hop ptr offset byte)

-- A stored byte is read back, and it is the only one that changes.
theorem byteOf_stored {old byte k k' : Nat} (hk : k < 8) (hk' : k' < 8) (hbyte : byte < 256) :
    byteOf (old / (256 ^ k * 256) * (256 ^ k * 256) + byte * 256 ^ k + old % 256 ^ k) k' =
      if k' = k then byte else byteOf old k' := by
  unfold byteOf
  interval_cases k <;> interval_cases k' <;> simp <;> omega

theorem byteAt_storeByte (s : State) (a a' : Nat) (byte : BitVec 8) :
    byteAt (storeByte s a byte) a' = if a' = a then byte.toNat else byteAt s a' := by
  by_cases hword : a' - a' % 8 = a - a % 8
  · have hstored : (storeByte s a byte).mem (a' - a' % 8) =
        s.mem (a - a % 8) / (256 ^ (a % 8) * 256) * (256 ^ (a % 8) * 256) +
          byte.toNat * 256 ^ (a % 8) + s.mem (a - a % 8) % 256 ^ (a % 8) := by
      rw [hword]
      exact if_pos rfl
    have hsame : a' % 8 = a % 8 ↔ a' = a := by omega
    rw [byteAt, hstored, byteOf_stored (by omega) (by omega) byte.isLt, byteAt, hword]
    simp only [hsame]
  · rw [byteAt, storeByte_mem hword, if_neg fun h => hword (by rw [h]), byteAt]

-- Two allocations have no address in common.
theorem Reachable.address (h : Reachable env w) {l l' : Live} (hl : l ∈ w.live) (hl' : l' ∈ w.live)
    {i i' : Nat} (hi : i < l.size) (hi' : i' < l'.size) :
    l'.ptr + i' = l.ptr + i ↔ l'.ptr = l.ptr ∧ i' = i := by
  refine ⟨fun heq => ?_, fun ⟨hptr, hoffset⟩ => by rw [hptr, hoffset]⟩
  cases h.1 with
  | empty _ _ hlive =>
      rw [hlive] at hl
      cases hl
  | heap hshows howned _ =>
      obtain ⟨hptr, b, hb, -, hsize⟩ := howned.block l hl
      obtain ⟨hptr', b', hb', -, hsize'⟩ := howned.block l' hl'
      by_cases hne : l.ptr - 8 = l'.ptr - 8
      · omega
      · have hbound := hshows.tiled.bounds hb
        have hbound' := hshows.tiled.bounds hb'
        have hapart := hb.apart hb' hne (by omega) (by omega)
        omega

-- One good call that spares the bytes.
theorem Filled.Reads.step {f f' : Filled} (hdoc : Documented env) (hreach : Reachable env f.world)
    (hgood : Good env f.world op) (hspares : Spares env f.world op)
    (hexec : f.exec env op = .ok f') (h : f.Reads) : f'.Reads := by
  obtain ⟨w', hworld, hf'⟩ := Lib.bind_ok hexec
  obtain rfl := Except.ok.inj hf'
  -- an allocator call keeps what the contents still say
  have hkept (hop : ∀ ptr offset byte, op ≠ .store ptr offset byte) {l' : Live} (hl' : l' ∈ w'.live)
      {i : Nat} {byte : BitVec 8} (hi : i < l'.size)
      (hbyte : (if within f.world.live l'.ptr i && within w'.live l'.ptr i then f.contents l'.ptr i
        else none) = some byte) : byteAt w'.heap (l'.ptr + i) = byte.toNat := by
    split at hbyte
    · rename_i hboth
      obtain ⟨l, hl, hptr, hil⟩ := within_iff.mp (Bool.and_eq_true_iff.mp hboth).1
      have hbytes := (hreach.kept hdoc hgood hworld hop).mpr hspares l hl l' hl' hptr.symm i
        (by omega)
      rw [← hptr, hbytes]
      exact h l hl i hil byte (by rwa [hptr])
    · cases hbyte
  intro l' hl' i hi byte hbyte
  cases op with
  | malloc size => exact hkept (by simp) hl' hi hbyte
  | free ptr => exact hkept (by simp) hl' hi hbyte
  | realloc ptr size => exact hkept (by simp) hl' hi hbyte
  | store ptr offset stored =>
      obtain rfl := Except.ok.inj hworld
      obtain ⟨⟨l, hl, rfl, hlt⟩, -⟩ := hgood
      have haddr := hreach.address hl hl' hlt hi
      simp only [Contents.step] at hbyte
      rw [byteAt_storeByte]
      simp only [haddr]
      split at hbyte
      · rename_i hsame
        rw [if_pos hsame, Option.some.inj hbyte]
      · rename_i hother
        rw [if_neg hother]
        exact h l' hl' i hi byte hbyte

-- A good call of the allocator keeps the bytes of the allocations exactly when it
-- spares them.
theorem kept_iff_spares (hdoc : Documented env)
    (hrun : Steps (exec env) (Good env) (World.start env mem) ops w) (hgood : Good env w op)
    (hexec : exec env w op = .ok w') (hop : ∀ ptr offset byte, op ≠ .store ptr offset byte) :
    Kept w w' ↔ Spares env w op :=
  Reachable.kept hdoc (requested_of_run hdoc hrun) hgood hexec hop

-- A byte of the block behind a freed one is lost.
theorem kept_iff_spares_of_free :
    ∃ w w', Steps (exec smallHeap) (Good smallHeap) (World.start smallHeap fun _ => 0)
        [.malloc 24, .malloc 24, .store 4176 16 2] w ∧
      exec smallHeap w (.free 4144) = .ok w' ∧ ⟨4176, 24⟩ ∈ w.live ∧ ⟨4176, 24⟩ ∈ w'.live ∧
      ¬Kept w w' := by
  obtain ⟨w, hrun, hw⟩ := run_of smallHeap (Good smallHeap) (fun _ => 0)
    [.malloc 24, .malloc 24, .store 4176 16 2]
    (fun w => (w.live, decide (Good smallHeap w (.free 4144)),
      decide (Spares smallHeap w (.free 4144)),
      (exec smallHeap w (.free 4144)).toOption.map World.live))
    ([⟨4176, 24⟩, ⟨4144, 24⟩], true, false, some [⟨4176, 24⟩]) (by decide +kernel)
  obtain ⟨hlive, hgood, hspares, hlive'⟩ := by
    simpa only [Prod.mk.injEq, decide_eq_true_eq, decide_eq_false_iff_not] using hw
  cases hexec : exec smallHeap w (.free 4144) with
  | error e =>
      rw [hexec] at hlive'
      cases hlive'
  | ok w' =>
      rw [hexec] at hlive'
      have hlive' : w'.live = [⟨4176, 24⟩] := Option.some.inj hlive'
      refine ⟨w, w', hrun, hexec, by simp [hlive], by simp [hlive'], fun hkept => hspares ?_⟩
      exact (kept_iff_spares smallHeap_documented hrun hgood hexec (by simp)).mp hkept

-- The heap refines the abstract store in every run of good calls that spare the bytes:
-- what the client reads is what it stored there last.
theorem reads_of_run (hdoc : Documented env) {f : Filled}
    (hrun : Steps (Filled.exec env) (fun f op => Good env f.world op ∧ Spares env f.world op)
      (Filled.start env mem) ops f) : f.Reads := by
  refine (hrun.invariant (fun f => Reachable env f.world ∧ f.Reads)
    (fun f op next hf hguard hexec => ?_) ⟨⟨.empty rfl (listed_start mem) rfl, ?_⟩, ?_⟩).2
  · obtain ⟨w', hworld, hnext⟩ := Lib.bind_ok hexec
    obtain rfl := Except.ok.inj hnext
    exact ⟨hf.1.step hdoc hguard.1 hworld, hf.2.step hdoc hf.1 hguard.1 hguard.2 hexec⟩
  · exact fun l hl => by cases hl
  · exact fun l hl => by cases hl

-- Two allocations that are written to, one of which is given back and one resized.
theorem reads_of_stores : ∃ f : Filled, Steps (Filled.exec smallHeap)
      (fun f op => Good smallHeap f.world op ∧ Spares smallHeap f.world op)
      (Filled.start smallHeap fun _ => 0)
      [.malloc 24, .malloc 100, .store 4144 3 255, .store 4176 1 7, .free 4144, .malloc 20,
        .store 4176 1 9, .realloc 4176 10] f ∧
    f.world.live = [⟨4176, 10⟩, ⟨4144, 20⟩] ∧ f.contents 4176 1 = some 9 ∧
    f.contents 4144 3 = none ∧ byteAt f.world.heap 4177 = 9 := by
  obtain ⟨f, hf⟩ := Option.map_eq_some_iff.mp (show (Lib.checkedRun (Filled.exec smallHeap)
      (fun f op => Good smallHeap f.world op ∧ Spares smallHeap f.world op)
      (Filled.start smallHeap fun _ => 0)
      [.malloc 24, .malloc 100, .store 4144 3 255, .store 4176 1 7, .free 4144, .malloc 20,
        .store 4176 1 9, .realloc 4176 10]).map (fun f : Filled =>
          (f.world.live, f.contents 4176 1, f.contents 4144 3)) =
      some ([⟨4176, 10⟩, ⟨4144, 20⟩], some 9, none) by decide +kernel)
  obtain ⟨hlive, hlast, hnone⟩ := by simpa only [Prod.mk.injEq] using hf.2
  have hrun := Steps.of_checkedRun hf.1
  refine ⟨f, hrun, hlive, hlast, hnone, ?_⟩
  exact reads_of_run smallHeap_documented hrun ⟨4176, 10⟩ (by simp [hlive]) 1 (by decide) 9 hlast

end CSE320.Sfmm
