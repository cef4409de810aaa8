import CSE320.Sfmm.Safety

namespace CSE320.Sfmm

open Lib (Steps)

-- The header of each allocation of the client holds the size that was requested.
def Requested (w : World) : Prop :=
  ∀ l ∈ w.live, (w.heap.info (l.ptr - 8)).requestedSize = BitVec.ofNat 32 l.size

variable {env : Sfutil} {s' : State} {blocks blocks' : List Blk} {epi epi' : Info}
  {lists lists' : List SizeList} {w w' : World} {x n : Nat} {mem : Nat → Nat} {ops : List Op}

theorem Shows.info_of_label (h : Shows env s' blocks' epi' lists' []) {c : Blk} {v : BitVec 32}
    (hc : At (firstBlock env) blocks' x c) (hlabel : c.label = (n, some v)) :
    (s'.info x).size = n ∧ (s'.info x).requestedSize = v ∧ (s'.info x).allocated = true := by
  obtain ⟨hsize, halloc⟩ := Prod.mk.inj (shape_of_given hlabel)
  rw [label_allocated halloc] at hlabel
  rw [h.tiled.header x c hc]
  exact ⟨hsize, Option.some.inj (Prod.mk.inj hlabel).2, halloc⟩

-- The allocations that a call keeps keep their headers.
theorem Requested.keep (hreq : Requested w) (h : Shows env w.heap blocks epi lists [])
    (howned : Owned env w blocks) (h' : Shows env s' blocks' epi' lists' [])
    (hkeep : KeepsLabels env x blocks blocks') {l : Live} (hl : l ∈ w.live) (hne : l.ptr - 8 ≠ x) :
    (s'.info (l.ptr - 8)).requestedSize = BitVec.ofNat 32 l.size := by
  obtain ⟨-, b, hb, halloc, -⟩ := howned.block l hl
  obtain ⟨c, hc, hlabel⟩ := hkeep _ b hb halloc hne
  rw [label_allocated halloc] at hlabel
  rw [(h'.info_of_label hc hlabel).2.1, ← hreq l hl, h.tiled.header _ b hb]

theorem Requested.malloc {size p ptr : Nat} (hreq : Requested w)
    (h : Shows env w.heap blocks epi lists []) (howned : Owned env w blocks)
    (h' : Shows env s' blocks' epi' lists' []) (hout : Delivers env size p ptr blocks blocks') :
    Requested ⟨s', if ptr = 0 then w.live else ⟨ptr, size⟩ :: w.live⟩ := by
  have hkept (l : Live) (hl : l ∈ w.live) :
      (s'.info (l.ptr - 8)).requestedSize = BitVec.ofNat 32 l.size := by
    have hptr := (howned.block l hl).1
    exact hreq.keep h howned h' (hout.keeps (l.ptr)) hl (by omega)
  intro l hl
  simp only at hl
  split at hl
  · exact hkept l hl
  · rename_i hne
    rcases List.mem_cons.mp hl with rfl | hl
    · obtain ⟨c, hc, hlabel⟩ := hout.given hne
      exact (h'.info_of_label hc hlabel).2.1
    · exact hkept l hl

theorem storeByte_mem {s : State} {a word : Nat} {byte : BitVec 8} (hne : word ≠ a - a % 8) :
    (storeByte s a byte).mem word = s.mem word := s.mem_write_ne hne

-- One good call on a heap that is there.
theorem Requested.step {op : Op} (hdoc : Documented env) (h : Shows env w.heap blocks epi lists [])
    (howned : Owned env w blocks) (hgood : Good env w op) (hexec : exec env w op = .ok w')
    (hreq : Requested w) : Requested w' := by
  obtain ⟨hallowed, hok⟩ := hgood
  have hne : env.memStart ≠ w.heap.memEnd := by
    rw [h.tiled.memEnd]
    omega
  cases op with
  | malloc size =>
      by_cases hzero : size = 0
      · have hnull : sfMalloc env w.heap size = .ok (0, w.heap) := by rw [sfMalloc, if_pos hzero]
        obtain rfl := Except.ok.inj ((exec_malloc hnull).symm.trans hexec)
        exact hreq
      · obtain ⟨hsize, hfit⟩ := hok.resolve_left hzero
        rw [if_neg hne] at hfit
        obtain ⟨ptr, s', blocks', epi', lists', heq, hshows, -, -, -, -, hout⟩ :=
          allocate_spec hdoc h hsize hfit
        have hcall : sfMalloc env w.heap size = .ok (ptr, s') := by
          rw [sfMalloc, if_neg hzero, if_neg hne, heq]
        obtain rfl := Except.ok.inj ((exec_malloc hcall).symm.trans hexec)
        exact hreq.malloc h howned hshows hout
  | free ptr =>
      obtain ⟨l, hl, rfl⟩ := hallowed
      rcases free_ready hdoc h howned hl hok with habort |
        ⟨pre, b, post, s', blocks', epi', lists', rfl, hptr, heq, hshows, -, -, -, hkeep⟩
      · rw [exec, habort] at hexec
        cases hexec
      · obtain rfl := Except.ok.inj ((exec_free heq).symm.trans hexec)
        intro l' hl'
        obtain ⟨hl', hother⟩ := List.mem_filter.mp hl'
        have hptr' := (howned.block l' hl').1
        have hother := of_decide_eq_true hother
        exact hreq.keep h howned hshows hkeep hl' (by omega)
  | realloc ptr size =>
      obtain ⟨-, l, hl, rfl⟩ := hallowed
      rcases realloc_ready hdoc h howned hl hok with habort | hrefused |
        ⟨pre, b, post, s', blocks', epi', lists', rfl, hptr, -, -, heq, hshows, -, -, -, hcut⟩
      · rw [exec, habort] at hexec
        cases hexec
      · obtain rfl := Except.ok.inj ((exec_realloc hrefused).symm.trans hexec)
        exact hreq
      · obtain rfl := Except.ok.inj ((exec_realloc heq).symm.trans hexec)
        intro l' hl'
        simp only [if_neg (show l.ptr ≠ 0 by omega)] at hl'
        rcases List.mem_cons.mp hl' with rfl | hl'
        · obtain ⟨c, hc, hlabel⟩ := hcut.resized
          exact (hshows.info_of_label hc hlabel).2.1
        · obtain ⟨hl', hother⟩ := List.mem_filter.mp hl'
          have hptr' := (howned.block l' hl').1
          have hother := of_decide_eq_true hother
          exact hreq.keep h howned hshows hcut.keeps hl' (by omega)
  | store ptr offset byte =>
      obtain ⟨l, hl, rfl, hlt⟩ := hallowed
      obtain rfl := Except.ok.inj hexec
      intro l' hl'
      obtain ⟨hptr, b, hb, -, hsize⟩ := howned.block l hl
      obtain ⟨hptr', b', hb', -, hsize'⟩ := howned.block l' hl'
      have hmod := (h.tiled.inHeap hdoc hb).2.2
      have hbound := h.tiled.bounds hb
      have hbound' := h.tiled.bounds hb'
      -- the word that is stored to is not a header
      have hword : l'.ptr - 8 ≠ (l.ptr + offset) - (l.ptr + offset) % 8 := by
        intro he
        obtain ⟨hsame, -⟩ := hb.unique hb' (w := l'.ptr - 8) (by omega) (by omega)
        omega
      rw [← hreq l' hl', info_congr (storeByte_mem hword)]

theorem Requested.first {op : Op} (hdoc : Documented env) (hend : w.heap.memEnd = env.memStart)
    (hlisted : Listed env w.heap []) (hlive : w.live = []) (hgood : Good env w op)
    (hexec : exec env w op = .ok w') : Requested w' := by
  obtain ⟨hallowed, hok⟩ := hgood
  cases op with
  | malloc size =>
      by_cases hzero : size = 0
      · have hnull : sfMalloc env w.heap size = .ok (0, w.heap) := by rw [sfMalloc, if_pos hzero]
        obtain rfl := Except.ok.inj ((exec_malloc hnull).symm.trans hexec)
        intro l hl
        simp [hlive] at hl
      · obtain ⟨hsize, hfirst⟩ := hok.resolve_left hzero
        rw [if_pos hend.symm] at hfirst
        obtain ⟨ptr, s', heq, hcases⟩ := sfMalloc_first hdoc hend hlisted hzero hsize hfirst
        obtain rfl := Except.ok.inj ((exec_malloc heq).symm.trans hexec)
        intro l hl
        simp only [hlive] at hl
        split at hl
        · cases hl
        · rename_i hne
          rcases hcases with ⟨-, hptr, -⟩ | ⟨-, blocks', epi', lists', hshows, -, -, -, hout⟩
          · exact absurd hptr hne
          · obtain rfl := List.mem_singleton.mp hl
            obtain ⟨c, hc, hlabel⟩ := hout.given hne
            exact (hshows.info_of_label hc hlabel).2.1
  | free ptr =>
      obtain ⟨l, hl, -⟩ := hallowed
      rw [hlive] at hl
      cases hl
  | realloc ptr size =>
      obtain ⟨-, l, hl, -⟩ := hallowed
      rw [hlive] at hl
      cases hl
  | store ptr offset byte =>
      obtain ⟨l, hl, -⟩ := hallowed
      rw [hlive] at hl
      cases hl

-- Every run of good calls.
theorem requested_of_run (hdoc : Documented env)
    (hrun : Steps (exec env) (Good env) (World.start env mem) ops w) :
    Holds env (fun _ _ _ => True) w ∧ Requested w := by
  refine hrun.invariant (fun w => Holds env (fun _ _ _ => True) w ∧ Requested w)
    (fun v op next hv hgood hexec => ?_)
    ⟨.empty rfl (listed_start mem) rfl, fun l hl => by cases hl⟩
  obtain ⟨hholds, hreq⟩ := hv
  refine ⟨Holds.step hdoc hgood (fun _ _ _ _ _ _ => trivial) (fun _ _ _ _ _ _ _ _ => trivial)
    hexec hholds, ?_⟩
  cases hholds with
  | empty hend hlisted hlive => exact .first hdoc hend hlisted hlive hgood hexec
  | heap hshows howned _ => exact hreq.step hdoc hshows howned hgood hexec

end CSE320.Sfmm
