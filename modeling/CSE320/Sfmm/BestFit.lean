import CSE320.Lib.Ring
import CSE320.Sfmm.Alloc

namespace CSE320.Sfmm

-- A circular list of sizes that ends at a sentinel of size 0, in any order.
structure SizeRing (s : State) (sentinel : Nat) (nodes : List Nat) : Prop where
  chain : List.IsChain (fun u v => s.nodeNext u = v) (sentinel :: (nodes ++ [sentinel]))
  sentinelSize : s.nodeSize sentinel = 0
  positive : ∀ node ∈ nodes, 0 < s.nodeSize node

-- The lists with a block that is large enough.
def Serves (s : State) (nodes : List Nat) (paddSize node : Nat) : Prop :=
  node ∈ nodes ∧ emptyList s node = false ∧ paddSize ≤ s.nodeSize node

def Smallest (s : State) (nodes : List Nat) (paddSize node : Nat) : Prop :=
  Serves s nodes paddSize node ∧ ∀ other, Serves s nodes paddSize other →
    s.nodeSize node ≤ s.nodeSize other

-- What a best fit is.
def Chosen (s : State) (nodes : List Nat) (paddSize : Nat) : Fit → Prop
  | .exact node => Smallest s nodes paddSize node ∧ s.nodeSize node = paddSize
  | .best node => Smallest s nodes paddSize node ∧ paddSize < s.nodeSize node
  | .none => ∀ node, ¬Serves s nodes paddSize node

-- The result when the search comes back to the sentinel.
def offer : Option Nat → Fit
  | some node => .best node
  | none => .none

-- The successor behind a node that is large enough.
def smaller (s : State) (cursor : Nat) : Option Nat → Option Nat
  | none => some cursor
  | some best => if s.nodeSize best > s.nodeSize cursor then some cursor else some best

variable {s : State} {sentinel paddSize cursor node : Nat} {nodes pre post back : List Nat}
  {successor : Option Nat}

theorem serves_concat : Serves s (pre ++ [cursor]) paddSize node ↔
    Serves s pre paddSize node ∨ node = cursor ∧ emptyList s cursor = false ∧
      paddSize ≤ s.nodeSize cursor := by
  rw [Serves, Serves, List.mem_append, List.mem_singleton]
  constructor
  · rintro ⟨hmem | rfl, hfull, hle⟩
    · exact Or.inl ⟨hmem, hfull, hle⟩
    · exact Or.inr ⟨rfl, hfull, hle⟩
  · rintro (⟨hmem, hfull, hle⟩ | ⟨rfl, hfull, hle⟩)
    · exact ⟨Or.inl hmem, hfull, hle⟩
    · exact ⟨Or.inr rfl, hfull, hle⟩

namespace Chosen

-- A node that is empty or too small changes nothing.
theorem skip (h : Chosen s pre paddSize (offer successor))
    (hcursor : emptyList s cursor = false → s.nodeSize cursor < paddSize) :
    Chosen s (pre ++ [cursor]) paddSize (offer successor) := by
  have hserves (other : Nat) : Serves s (pre ++ [cursor]) paddSize other ↔
      Serves s pre paddSize other := by
    rw [serves_concat]
    refine ⟨fun hor => hor.resolve_right fun ⟨_, hfull, hle⟩ => ?_, Or.inl⟩
    have hlt := hcursor hfull
    omega
  cases successor with
  | none => exact fun other hother => h other ((hserves other).mp hother)
  | some best =>
      obtain ⟨⟨hbest, hleast⟩, hlt⟩ := h
      exact ⟨⟨(hserves best).mpr hbest,
        fun other hother => hleast other ((hserves other).mp hother)⟩, hlt⟩

theorem larger (h : Chosen s pre paddSize (offer successor)) (hfull : emptyList s cursor = false)
    (hlt : paddSize < s.nodeSize cursor) :
    Chosen s (pre ++ [cursor]) paddSize (offer (smaller s cursor successor)) := by
  have hself : Serves s (pre ++ [cursor]) paddSize cursor :=
    serves_concat.mpr (Or.inr ⟨rfl, hfull, hlt.le⟩)
  cases successor with
  | none =>
      refine ⟨⟨hself, fun other hother => ?_⟩, hlt⟩
      rcases serves_concat.mp hother with hpre | ⟨rfl, -⟩
      · exact absurd hpre (h other)
      · exact Nat.le_refl _
  | some best =>
      obtain ⟨⟨hbest, hleast⟩, hltBest⟩ := h
      rw [smaller]
      by_cases hgt : s.nodeSize best > s.nodeSize cursor
      · rw [if_pos hgt]
        refine ⟨⟨hself, fun other hother => ?_⟩, hlt⟩
        rcases serves_concat.mp hother with hpre | ⟨rfl, -⟩
        · have hle := hleast other hpre
          omega
        · exact Nat.le_refl _
      · rw [if_neg hgt]
        refine ⟨⟨serves_concat.mpr (Or.inl hbest), fun other hother => ?_⟩, hltBest⟩
        rcases serves_concat.mp hother with hpre | ⟨rfl, -⟩
        · exact hleast other hpre
        · omega

end Chosen

-- The search from a node in the middle, with the best successor of the nodes
-- before it.
theorem search_from (hzero : s.nodeSize sentinel = 0) (hpos : ∀ node ∈ post, 0 < s.nodeSize node)
    (hchain : List.IsChain (fun u v => s.nodeNext u = v) (post ++ [sentinel]))
    (hcursor : post ++ [sentinel] = cursor :: back) {fuel : Nat} (hfuel : post.length < fuel)
    (h : Chosen s pre paddSize (offer successor)) :
    ∃ fit, search s paddSize fuel cursor successor = .ok fit ∧
      Chosen s (pre ++ post) paddSize fit := by
  obtain ⟨fuel, rfl⟩ : ∃ k, fuel = k + 1 := ⟨fuel - 1, by omega⟩
  induction post generalizing pre cursor back successor fuel with
  | nil =>
      obtain ⟨rfl, -⟩ := List.cons.inj hcursor
      refine ⟨offer successor, ?_, by rwa [List.append_nil]⟩
      simp only [search, if_pos hzero]
      cases successor <;> rfl
  | cons a rest ih =>
      obtain ⟨rfl, -⟩ := List.cons.inj hcursor
      obtain ⟨next, tail, hnext⟩ := Lib.cut_behind sentinel rest
      have hlinks := hchain
      rw [List.cons_append, hnext] at hlinks
      have hstep : s.nodeNext a = next := (List.isChain_cons_cons.mp hlinks).1
      have hsize := hpos a (List.mem_cons_self ..)
      rw [List.length_cons] at hfuel
      obtain ⟨fuel, rfl⟩ : ∃ k, fuel = k + 1 := ⟨fuel - 1, by omega⟩
      have hrest {successor : Option Nat} (h : Chosen s (pre ++ [a]) paddSize (offer successor)) :
          ∃ fit, search s paddSize (fuel + 1) next successor = .ok fit ∧
            Chosen s (pre ++ a :: rest) paddSize fit := by
        have hrun := ih (fun node hnode => hpos node (List.mem_cons_of_mem _ hnode)) hchain.tail
          hnext h fuel
          (by omega)
        rwa [List.append_assoc] at hrun
      simp only [search, if_neg (Nat.ne_of_gt hsize), hstep]
      by_cases hexact : s.nodeSize a = paddSize
      · rw [if_pos hexact]
        cases hempty : emptyList s a with
        | true => exact hrest (h.skip (by simp [hempty]))
        | false =>
            refine ⟨.exact a, rfl, ⟨⟨by simp, hempty, hexact.ge⟩, fun other hother => ?_⟩, hexact⟩
            exact hexact.le.trans hother.2.2
      · rw [if_neg hexact]
        by_cases hgt : s.nodeSize a > paddSize
        · rw [if_pos hgt]
          cases hempty : emptyList s a with
          | true => exact hrest (h.skip (by simp [hempty]))
          | false =>
              have hlarger := hrest (h.larger hempty hgt)
              cases successor with
              | none => exact hlarger
              | some best => exact hlarger
        · rw [if_neg hgt]
          exact hrest (h.skip fun _ => by omega)

-- The search ends, with a best fit, whatever the order of the sizes is.
theorem SizeRing.search (h : SizeRing s sentinel nodes) (paddSize : Nat) {fuel : Nat}
    (hfuel : nodes.length < fuel) :
    ∃ fit, Sfmm.search s paddSize fuel (s.nodeNext sentinel) none = .ok fit ∧
      Chosen s nodes paddSize fit := by
  obtain ⟨first, back, hfirst⟩ := Lib.cut_behind sentinel nodes
  have hlinks := h.chain
  rw [hfirst] at hlinks
  rw [(List.isChain_cons_cons.mp hlinks).1]
  have hnone : Chosen s [] paddSize (offer none) := fun _ hserves => List.not_mem_nil hserves.1
  exact search_from h.sentinelSize h.positive h.chain.tail hfirst hfuel hnone

theorem SizeRing.same_of_size (hdistinct : (nodes.map s.nodeSize).Nodup) {u v : Nat}
    (hu : u ∈ nodes) (hv : v ∈ nodes) (hsize : s.nodeSize u = s.nodeSize v) : u = v :=
  List.inj_on_of_nodup_map hdistinct hu hv hsize

-- The search of sf_malloc ends in any circular list of distinct sizes. It takes
-- a list of exactly the padded size if one has a block, then the list of the
-- least larger size that has one, and it finds nothing if none is large enough.
theorem search_selects (h : SizeRing s sentinel nodes) (hdistinct : (nodes.map s.nodeSize).Nodup)
    (size : Nat) {fuel : Nat} (hfuel : nodes.length < fuel) :
    ∃ fit, search s (padding size) fuel (s.nodeNext sentinel) none = .ok fit ∧
      (∀ node, fit = .exact node ↔
        node ∈ nodes ∧ emptyList s node = false ∧ s.nodeSize node = padding size) ∧
      (∀ node, fit = .best node ↔
        Smallest s nodes (padding size) node ∧ padding size < s.nodeSize node) ∧
      (fit = .none ↔ ∀ node ∈ nodes, emptyList s node = false →
        s.nodeSize node < padding size) := by
  obtain ⟨fit, hsearch, hchosen⟩ := h.search (padding size) hfuel
  -- two smallest nodes are the same one
  have hunique {u v : Nat} (hu : Smallest s nodes (padding size) u)
      (hv : Smallest s nodes (padding size) v) :
      u = v :=
    SizeRing.same_of_size hdistinct hu.1.1 hv.1.1 (Nat.le_antisymm (hu.2 v hv.1) (hv.2 u hu.1))
  have hexact {node : Nat} (hnode : node ∈ nodes ∧ emptyList s node = false ∧
      s.nodeSize node = padding size) :
      Smallest s nodes (padding size) node :=
    ⟨⟨hnode.1, hnode.2.1, hnode.2.2.ge⟩, fun other hother => hnode.2.2.le.trans hother.2.2⟩
  refine ⟨fit, hsearch, ?_⟩
  cases fit with
  | exact node =>
      obtain ⟨hsmall, hsize⟩ := hchosen
      refine ⟨fun other => ⟨?_, fun hother => ?_⟩, fun other => ⟨nofun, fun hother => ?_⟩, nofun,
        fun hall => ?_⟩
      · rintro ⟨rfl⟩
        exact ⟨hsmall.1.1, hsmall.1.2.1, hsize⟩
      · rw [hunique hsmall (hexact hother)]
      · have heq := hunique hsmall hother.1
        subst heq
        omega
      · have hlt := hall node hsmall.1.1 hsmall.1.2.1
        omega
  | best node =>
      obtain ⟨hsmall, hsize⟩ := hchosen
      refine ⟨fun other => ⟨nofun, fun hother => ?_⟩, fun other => ⟨?_, fun hother => ?_⟩, nofun,
        fun hall => ?_⟩
      · have heq := hunique hsmall (hexact hother)
        subst heq
        omega
      · rintro ⟨rfl⟩
        exact ⟨hsmall, hsize⟩
      · rw [hunique hsmall hother.1]
      · have hlt := hall node hsmall.1.1 hsmall.1.2.1
        omega
  | none =>
      refine ⟨fun other => ⟨nofun, fun hother => ?_⟩, fun other => ⟨nofun, fun hother => ?_⟩,
        fun _ node hnode hfull => ?_, fun _ => rfl⟩
      · exact absurd (hexact hother).1 (hchosen other)
      · exact absurd hother.1.1 (hchosen other)
      · exact Nat.lt_of_not_le fun hle => hchosen node ⟨hnode, hfull, hle⟩

-- The sizes 64, 128 and 96; the list of the blocks of size 64 is empty.
def threeSizes : State where
  mem := fun a =>
    ([(64, 64), (80, 72), (88, 72), (96, 128), (128, 128), (144, 1024), (152, 1024),
      (160, 192), (192, 96), (208, 2048), (216, 2048), (224, 256), (288, 64)].lookup a).getD 0
  memEnd := 4096
  nodes := 3
  growCalls := 1
  addCalls := 3
  errno := .unset

theorem search_selects_least_larger :
    search threeSizes (padding 70) 4 (threeSizes.nodeNext 256) none = .ok (.best 192) ∧
      search threeSizes (padding 50) 4 (threeSizes.nodeNext 256) none = .ok (.best 192) := by
  have hring : SizeRing threeSizes 256 [64, 128, 192] := ⟨by decide, by decide, by decide⟩
  have hsmall (paddSize : Nat) (hhigh : paddSize < 96) :
      Smallest threeSizes [64, 128, 192] paddSize 192 := by
    refine ⟨⟨by decide, by decide, hhigh.le⟩, fun other hother => ?_⟩
    obtain ⟨hmem, hfull, -⟩ := hother
    simp only [List.mem_cons, List.not_mem_nil, or_false] at hmem
    rcases hmem with rfl | rfl | rfl
    · exact absurd hfull (by decide)
    · decide
    · exact Nat.le_refl _
  constructor
  · obtain ⟨fit, hsearch, -, hbest, -⟩ := search_selects hring (by decide) 70 (show 3 < 4 by decide)
    rw [hsearch, (hbest 192).mpr ⟨hsmall _ (by decide), by decide⟩]
  · obtain ⟨fit, hsearch, -, hbest, -⟩ := search_selects hring (by decide) 50 (show 3 < 4 by decide)
    rw [hsearch, (hbest 192).mpr ⟨hsmall _ (by decide), by decide⟩]

end CSE320.Sfmm
