import CSE320.Sfmm.BestFit
import CSE320.Sfmm.Lists

namespace CSE320.Sfmm

variable (env : Sfutil)

-- The node at which a walk over the given lists starts.
def firstNode : List SizeList → Nat
  | [] => env.slot 0
  | l :: _ => l.node

variable {env} {s : State} {lists pre post : List SizeList} {l : SizeList}

theorem firstNode_spec (env : Sfutil) (lists : List SizeList) :
    ∃ back, lists.map SizeList.node ++ [env.slot 0] = firstNode env lists :: back := by
  cases lists with
  | nil => exact ⟨[], rfl⟩
  | cons l rest => exact ⟨rest.map SizeList.node ++ [env.slot 0], rfl⟩

namespace Listed

theorem nodeNext_head (h : Listed env s lists) : s.nodeNext (env.slot 0) = firstNode env lists := by
  obtain ⟨back, hback⟩ := firstNode_spec env lists
  exact h.nodeRing.next_head hback

theorem nodeNext (h : Listed env s (pre ++ l :: post)) :
    s.nodeNext l.node = firstNode env post := by
  obtain ⟨back, hback⟩ := firstNode_spec env post
  have hring := h.nodeRing
  have hcut : (pre ++ l :: post).map SizeList.node =
      (pre.map SizeList.node ++ [l.node]) ++ post.map SizeList.node := by simp
  rw [hcut] at hring
  have hfront : env.slot 0 :: (pre.map SizeList.node ++ [l.node]) =
      (env.slot 0 :: pre.map SizeList.node) ++ [l.node] := rfl
  exact (hring.cut hfront hback).2.1.1

theorem nodeNext_last (h : Listed env s lists) :
    s.nodeNext (s.nodePrev (env.slot 0)) = env.slot 0 := by
  obtain ⟨front, p, hp⟩ := Lib.cut_before (env.slot 0) (lists.map SizeList.node)
  have hring := h.nodeRing
  rw [← List.append_nil (lists.map SizeList.node)] at hring
  rw [h.nodeRing.prev_head hp]
  exact (hring.cut hp (show [] ++ [env.slot 0] = env.slot 0 :: [] from rfl)).2.1.1

theorem emptyList_iff (hdoc : Documented env) (h : Listed env s lists) (hl : l ∈ lists) :
    emptyList s l.node = true ↔ l.members = [] := by
  have hring := h.ring l hl
  have hhead : head l.node ∉ l.members := (List.nodup_cons.mp (h.ring_nodup hdoc hl)).1
  rw [emptyList, decide_eq_true_iff, hring.next_eq_head_iff hhead]
  refine ⟨And.left, fun hnil => ⟨hnil, ?_⟩⟩
  rw [hnil] at hring
  exact hring.prev_head (show [head l.node] = [] ++ [head l.node] from rfl)

theorem single_iff (hdoc : Documented env) (h : Listed env s lists) (hl : l ∈ lists) :
    s.linkNext (head l.node) = s.linkPrev (head l.node) ↔ l.members.length ≤ 1 :=
  (h.ring l hl).next_eq_prev_iff (h.ring_nodup hdoc hl)

-- What the search for a place finds: the first node of at least the given size.
theorem findPlace (h : Listed env s lists) (hpos : ∀ a ∈ lists, 0 < a.size) {size fuel : Nat}
    (hsize : 0 < size) (heq : lists = pre ++ post) (hfuel : post.length < fuel) :
    findPlace s size fuel (firstNode env post) = .ok (match post.find? (size ≤ ·.size) with
      | some a => if a.size = size then .equal a.node else .before a.node
      | none => .atEnd) := by
  induction post generalizing pre fuel with
  | nil =>
      obtain ⟨fuel, rfl⟩ := Nat.exists_eq_succ_of_ne_zero (Nat.ne_of_gt hfuel)
      have hzero : s.nodeSize (env.slot 0) = 0 := h.headSize
      simp only [firstNode, Sfmm.findPlace, hzero]
      rw [if_neg (by omega), if_neg (by omega)]
      rfl
  | cons a rest ih =>
      obtain ⟨fuel, rfl⟩ :=
        Nat.exists_eq_succ_of_ne_zero (Nat.ne_of_gt (Nat.lt_of_le_of_lt (Nat.zero_le _) hfuel))
      have ha : a ∈ lists := by simp [heq]
      have hnode := h.nodeSizes a ha
      have hsize' := hpos a ha
      have hnext : s.nodeNext a.node = firstNode env rest := by
        rw [heq] at h
        exact h.nodeNext
      rw [show firstNode env (a :: rest) = a.node from rfl]
      simp only [Sfmm.findPlace, hnode, hnext]
      by_cases heqsize : a.size = size
      · simp [heqsize]
      · by_cases hgt : size < a.size
        · have hle : size ≤ a.size := by omega
          simp [heqsize, hgt, hle]
        · have hle : ¬size ≤ a.size := by omega
          have hne : a.size ≠ 0 := by omega
          rw [if_neg heqsize, if_neg (by omega), if_neg hne,
            ih (show lists = (pre ++ [a]) ++ rest by simp [heq]) (by simp at hfuel; omega)]
          simp [hle]

theorem findSize (h : Listed env s lists) (hpos : ∀ a ∈ lists, 0 < a.size) {size fuel : Nat}
    (heq : lists = pre ++ post) (hfuel : post.length < fuel) :
    findSize s size fuel (firstNode env post) =
      .ok ((post.find? (·.size = size)).map SizeList.node) := by
  induction post generalizing pre fuel with
  | nil =>
      obtain ⟨fuel, rfl⟩ := Nat.exists_eq_succ_of_ne_zero (Nat.ne_of_gt hfuel)
      have hzero : s.nodeSize (env.slot 0) = 0 := h.headSize
      simp [firstNode, Sfmm.findSize, hzero]
  | cons a rest ih =>
      obtain ⟨fuel, rfl⟩ :=
        Nat.exists_eq_succ_of_ne_zero (Nat.ne_of_gt (Nat.lt_of_le_of_lt (Nat.zero_le _) hfuel))
      have ha : a ∈ lists := by simp [heq]
      have hnode := h.nodeSizes a ha
      have hne : a.size ≠ 0 := Nat.ne_of_gt (hpos a ha)
      have hnext : s.nodeNext a.node = firstNode env rest := by
        rw [heq] at h
        exact h.nodeNext
      rw [show firstNode env (a :: rest) = a.node from rfl]
      simp only [Sfmm.findSize, hnode, hnext, if_neg hne]
      by_cases heqsize : a.size = size
      · simp [heqsize]
      · rw [if_neg heqsize,
          ih (show lists = (pre ++ [a]) ++ rest by simp [heq]) (by simp at hfuel; omega)]
        simp [heqsize]

end Listed

-- What sf_malloc may find: a list with a block, of the exact size or larger. If
-- there is no such list, it finds nothing.
def Found (lists : List SizeList) (paddSize : Nat) : Fit → Prop
  | .exact node => ∃ l ∈ lists, l.node = node ∧ l.size = paddSize ∧ l.members ≠ []
  | .best node => ∃ l ∈ lists, l.node = node ∧ paddSize < l.size ∧ l.members ≠ []
  | .none => ∀ l ∈ lists, paddSize ≤ l.size → l.members = []

namespace Listed

theorem sizeRing (h : Listed env s lists) (hpos : ∀ a ∈ lists, 0 < a.size) :
    SizeRing s (env.slot 0) (lists.map SizeList.node) := by
  refine ⟨h.nodeRing.imp fun _ _ hlinked => hlinked.1, h.headSize, fun node hnode => ?_⟩
  obtain ⟨l, hl, rfl⟩ := List.mem_map.mp hnode
  rw [h.nodeSizes l hl]
  exact hpos l hl

theorem members_of_serves (hdoc : Documented env) (h : Listed env s lists) {paddSize node : Nat}
    (hserves : Serves s (lists.map SizeList.node) paddSize node) :
    ∃ l ∈ lists, l.node = node ∧ l.size = s.nodeSize node ∧ l.members ≠ [] := by
  obtain ⟨hmem, hfull, -⟩ := hserves
  obtain ⟨l, hl, rfl⟩ := List.mem_map.mp hmem
  refine ⟨l, hl, rfl, (h.nodeSizes l hl).symm, fun hnil => ?_⟩
  rw [(h.emptyList_iff hdoc hl).mpr hnil] at hfull
  cases hfull

theorem search (hdoc : Documented env) (h : Listed env s lists) (hpos : ∀ a ∈ lists, 0 < a.size)
    (paddSize : Nat) {fuel : Nat} (hfuel : lists.length < fuel) :
    ∃ fit, Sfmm.search s paddSize fuel (s.nodeNext (env.slot 0)) none = .ok fit ∧
      Found lists paddSize fit := by
  obtain ⟨fit, hsearch, hchosen⟩ := (h.sizeRing hpos).search paddSize (by rwa [List.length_map])
  refine ⟨fit, hsearch, ?_⟩
  cases fit with
  | exact node =>
      obtain ⟨l, hl, hnode, hsize, hne⟩ := h.members_of_serves hdoc hchosen.1.1
      exact ⟨l, hl, hnode, hsize.trans hchosen.2, hne⟩
  | best node =>
      obtain ⟨l, hl, hnode, hsize, hne⟩ := h.members_of_serves hdoc hchosen.1.1
      exact ⟨l, hl, hnode, hchosen.2.trans_eq hsize.symm, hne⟩
  | none =>
      intro l hl hle
      by_contra hne
      refine hchosen l.node ⟨List.mem_map_of_mem hl, ?_, ?_⟩
      · rw [← Bool.not_eq_true, h.emptyList_iff hdoc hl]
        exact hne
      · rwa [h.nodeSizes l hl]

end Listed

end CSE320.Sfmm
