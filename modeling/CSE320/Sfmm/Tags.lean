import CSE320.Sfmm.Layout

namespace CSE320.Sfmm

def Info.setPrev (v : Bool) (i : Info) : Info := { i with prevAllocated := v }

-- The prev_allocated bit of the block behind a place, in its header and in its
-- footer, or the bit of the epilogue.
def Blk.setPrev (v : Bool) (b : Blk) : Blk := ⟨b.info.setPrev v, b.foot.setPrev v⟩

def markHeader (v : Bool) : List Blk → List Blk
  | [] => []
  | b :: rest => { b with info := b.info.setPrev v } :: rest

def markNext (v : Bool) : List Blk → List Blk
  | [] => []
  | b :: rest => b.setPrev v :: rest

def markEpilogue (v : Bool) : List Blk → Info → Info
  | [], epi => epi.setPrev v
  | _ :: _, epi => epi

-- The tag at the place behind a sequence of blocks.
def nextInfo : List Blk → Info → Info
  | [], epi => epi
  | b :: _, _ => b.info

variable {env : Sfutil} {s : State} {blocks pre post : List Blk} {b : Blk} {epi : Info}

namespace Tiled

-- Any number of writes inside one block: what its header says then, and what the
-- footer says if the block is free then.
theorem rewrite {s' : State} {info foot : Info} (h : Tiled env s (pre ++ b :: post) epi)
    (hend : s'.memEnd = s.memEnd) (hsize : info.size = b.size)
    (hout : ∀ w, (w < firstBlock env + Sfmm.total pre ∨
      firstBlock env + Sfmm.total pre + b.size ≤ w) →
      s'.mem w = s.mem w)
    (hinfo : s'.info (firstBlock env + Sfmm.total pre) = info)
    (hfoot : info.allocated = false → s'.info (firstBlock env + Sfmm.total pre + b.size - 8) =
      foot) :
    Tiled env s' (pre ++ ⟨info, foot⟩ :: post) epi := by
  have hold : Tiled env s (pre ++ [b] ++ post) epi := by simpa using h
  have hb := h.sized b (by simp)
  have hnew : Blk.size ⟨info, foot⟩ = b.size := hsize
  have hres : Tiled env s' (pre ++ [⟨info, foot⟩] ++ post) epi := by
    refine hold.replace hend (by simp [hnew]) (fun c hc => ?_) (by simpa using hout)
      (fun x c hx => ?_)
    · obtain rfl := List.mem_singleton.mp hc
      omega
    · obtain ⟨rfl, rfl⟩ | hx := hx
      · rw [hnew]
        exact ⟨hinfo, hfoot⟩
      · exact absurd hx id
  simpa using hres

theorem setHeader (h : Tiled env s (pre ++ b :: post) epi) {f : Info → Info}
    (hsize : (f b.info).size = b.size)
    (halloc : (f b.info).allocated = false → b.info.allocated = false) :
    Tiled env (s.setInfo (firstBlock env + Sfmm.total pre) f)
      (pre ++ { b with info := f b.info } :: post) epi := by
  have hx := at_middle (firstBlock env) pre post b
  have hb := h.sized b (by simp)
  refine h.rewrite rfl hsize (fun w hw => s.mem_setInfo_ne f (by omega)) ?_ (fun hfree => ?_)
  · rw [State.info_setInfo_self, h.header _ b hx]
  · rw [s.info_setInfo_ne f (by omega)]
    exact h.footer _ b hx (halloc hfree)

theorem setFooter (h : Tiled env s (pre ++ b :: post) epi) (f : Info → Info) :
    Tiled env (s.setInfo (firstBlock env + Sfmm.total pre + b.size - 8) f)
      (pre ++ { b with foot := f b.foot } :: post) epi := by
  have hx := at_middle (firstBlock env) pre post b
  have hb := h.sized b (by simp)
  refine h.rewrite rfl rfl (fun w hw => s.mem_setInfo_ne f (by omega)) ?_ (fun hfree => ?_)
  · rw [s.info_setInfo_ne f (by omega)]
    exact h.header _ b hx
  · rw [State.info_setInfo_self, h.footer _ b hx hfree]

theorem setEpilogue (h : Tiled env s blocks epi) (f : Info → Info) :
    Tiled env (s.setInfo (env.memStart + 4088) f) blocks (f epi) := by
  refine ⟨h.memEnd, h.total, h.sized, fun x b hx => ?_, fun x b hx hfree => ?_, ?_⟩
  · have hb := h.bounds hx
    rw [s.info_setInfo_ne f (by omega)]
    exact h.header x b hx
  · have hb := h.bounds hx
    rw [s.info_setInfo_ne f (by omega)]
    exact h.footer x b hx hfree
  · rw [State.info_setInfo_self, h.epilogue]

-- The place behind a sequence of blocks is the next header or the epilogue.
theorem next_eq (h : Tiled env s (pre ++ post) epi) :
    (post = [] → firstBlock env + Sfmm.total pre = env.memStart + 4088) ∧
      s.info (firstBlock env + Sfmm.total pre) = nextInfo post epi := by
  have ht := h.total
  rw [total_append] at ht
  cases post with
  | nil =>
      have hend : firstBlock env + Sfmm.total pre = env.memStart + 4088 := by
        simp only [total_nil] at ht
        simp only [firstBlock]
        omega
      refine ⟨fun _ => hend, ?_⟩
      rw [hend, h.epilogue]
      rfl
  | cons b rest =>
      refine ⟨fun hnil => ?_, h.header _ b (at_middle _ pre rest b)⟩
      cases hnil

theorem info_behind (h : Tiled env s (pre ++ b :: post) epi) :
    s.info (firstBlock env + Sfmm.total pre + b.size) = nextInfo post epi := by
  rw [List.append_cons] at h
  have hnext := h.next_eq.2
  simpa [← Nat.add_assoc] using hnext

theorem last_block (h : Tiled env s (pre ++ b :: post) epi)
    (hend : firstBlock env + Sfmm.total pre + b.size = env.memStart + 4088) : post = [] := by
  have ht := h.total
  cases post with
  | nil => rfl
  | cons c rest =>
      have hc := h.sized c (by simp)
      simp only [total_append, total_cons] at ht
      simp only [firstBlock] at hend
      omega

theorem setNextHeader (h : Tiled env s (pre ++ post) epi) (v : Bool) :
    Tiled env (s.setInfo (firstBlock env + Sfmm.total pre) (Info.setPrev v))
      (pre ++ markHeader v post) (markEpilogue v post epi) := by
  cases post with
  | nil =>
      rw [h.next_eq.1 rfl]
      exact h.setEpilogue _
  | cons b rest => exact h.setHeader rfl id

theorem setNext (h : Tiled env s (pre ++ post) epi) (hepi : epi.size = 0) (v : Bool) :
    Tiled env ((s.setInfo (firstBlock env + Sfmm.total pre) (Info.setPrev v)).setInfo
      (footOf s (firstBlock env + Sfmm.total pre)) (Info.setPrev v))
      (pre ++ markNext v post) (markEpilogue v post epi) := by
  have hnext := h.next_eq
  have hhead := h.setNextHeader v
  cases post with
  | nil =>
      have hend : s.memEnd - 8 = env.memStart + 4088 := by
        rw [h.memEnd]
        omega
      rw [footOf, hnext.2, nextInfo, hepi, if_neg (by simp), hend]
      exact hhead.setEpilogue _
  | cons b rest =>
      have hb := h.sized b (by simp)
      have hne : b.info.size ≠ 0 := by
        rw [Blk.size] at hb
        omega
      rw [footOf, hnext.2, nextInfo, if_pos hne]
      exact hhead.setFooter _

end Tiled

end CSE320.Sfmm
