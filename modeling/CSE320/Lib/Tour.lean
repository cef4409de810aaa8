import Mathlib.Data.List.Chain
import Mathlib.Data.List.Nodup
import Mathlib.Logic.Relation

namespace CSE320.Lib

open Relation (ReflTransGen)

variable {α : Type} {edge forward : α → α → Prop} {root start target x last : α}
  {visited rest : List α}

-- What a tour of a graph can visit next: the root at first, and then the ends of the
-- edges of what it has visited.
def Led (edge : α → α → Prop) (root : α) (visited : List α) (x : α) : Prop :=
  (visited = [] ∧ x = root) ∨ ∃ y ∈ visited, edge y x

-- The nodes that a tour has visited, the last one first.
inductive Tour (edge : α → α → Prop) (root : α) : List α → Prop
  | nil : Tour edge root []
  | cons {x : α} {visited : List α} (h : Tour edge root visited) (hled : Led edge root visited x)
      (hnew : x ∉ visited) :
      Tour edge root (x :: visited)

theorem Tour.nodup (h : Tour edge root visited) : visited.Nodup := by
  induction h with
  | nil => exact List.nodup_nil
  | cons _ _ hnew ih => exact List.nodup_cons.mpr ⟨hnew, ih⟩

theorem Tour.of_suffix {front : List α} (h : Tour edge root (front ++ visited)) :
    Tour edge root visited := by
  induction front with
  | nil => exact h
  | cons x front ih =>
      cases h with
      | cons h hled hnew => exact ih h

-- Going back over a tour, each node with an edge to the head of the path is put before it.
def climb (edge : α → α → Prop) [DecidableRel edge] : List α → α → List α → List α
  | [], last, rest => last :: rest
  | x :: visited, last, rest =>
      if edge x last then climb edge visited x (last :: rest) else climb edge visited last rest

-- The node before the last one of the path is still ahead as long as the path does not
-- begin with the root.
theorem Tour.climb [DecidableRel edge] (h : Tour edge root visited)
    (hled : Led edge root visited last) (hchain : (last :: rest).IsChain edge)
    (hnodup : (last :: rest).Nodup) (hnew : ∀ y ∈ last :: rest, y ∉ visited) :
    let path := Lib.climb edge visited last rest
    path.head? = some root ∧ last :: rest <:+ path ∧ path.IsChain edge ∧ path.Nodup ∧
      path ⊆ visited ++ last :: rest := by
  induction visited generalizing last rest with
  | nil =>
      rcases hled with ⟨-, rfl⟩ | ⟨y, hy, -⟩
      · exact ⟨rfl, List.suffix_refl _, hchain, hnodup, List.Subset.refl _⟩
      · exact nomatch hy
  | cons x visited ih =>
      cases h with
      | cons h hledx hnewx =>
        have hold (y : α) (hy : y ∈ last :: rest) : y ∉ visited :=
          fun hmem => hnew y hy (List.mem_cons_of_mem x hmem)
        rw [Lib.climb]
        by_cases hedge : edge x last
        · have hfresh : x ∉ last :: rest := fun hmem => hnew x hmem List.mem_cons_self
          have hnext : ∀ y ∈ x :: last :: rest, y ∉ visited := by
            intro y hy
            rcases List.mem_cons.mp hy with rfl | hy
            · exact hnewx
            · exact hold y hy
          obtain ⟨hhead, hsuffix, hpath, hdistinct, hsub⟩ :=
            ih h hledx (List.isChain_cons_cons.mpr ⟨hedge, hchain⟩)
            (List.nodup_cons.mpr ⟨hfresh, hnodup⟩) hnext
          rw [if_pos hedge]
          refine ⟨hhead, (List.suffix_cons x _).trans hsuffix, hpath, hdistinct, fun y hy => ?_⟩
          have hmem := hsub hy
          simp only [List.mem_append, List.mem_cons] at hmem ⊢
          tauto
        · have hledlast : Led edge root visited last := by
            rcases hled with ⟨hempty, -⟩ | ⟨y, hy, hyedge⟩
            · exact nomatch hempty
            · rcases List.mem_cons.mp hy with rfl | hy
              · exact absurd hyedge hedge
              · exact Or.inr ⟨y, hy, hyedge⟩
          obtain ⟨hhead, hsuffix, hpath, hdistinct, hsub⟩ := ih h hledlast hchain hnodup hold
          rw [if_neg hedge]
          exact ⟨hhead, hsuffix, hpath, hdistinct, fun y hy => List.mem_cons_of_mem x (hsub hy)⟩

-- The steps of a search that goes straight to the target where it can, and otherwise
-- along some of the edges.
def Shortcut (edge forward : α → α → Prop) (target x y : α) : Prop :=
  x ≠ target ∧ ((edge x target ∧ y = target) ∨ (¬edge x target ∧ forward x y))

-- Such a search comes to the target along these edges and a last one of any kind.
theorem shortcut_iff (hsub : ∀ x y, forward x y → edge x y) :
    ReflTransGen (Shortcut edge forward target) start target ↔
      start = target ∨ ∃ x, ReflTransGen forward start x ∧ edge x target := by
  constructor
  · intro h
    induction h using ReflTransGen.head_induction_on with
    | refl => exact Or.inl rfl
    | @head a c hstep _ ih =>
        obtain ⟨-, ⟨hedge, -⟩ | ⟨hno, hforward⟩⟩ := hstep
        · exact Or.inr ⟨a, .refl, hedge⟩
        · rcases ih with rfl | ⟨x, hpath, hedge⟩
          · exact absurd (hsub a c hforward) hno
          · exact Or.inr ⟨x, .head hforward hpath, hedge⟩
  · rintro (rfl | ⟨x, hpath, hlast⟩)
    · exact .refl
    · induction hpath using ReflTransGen.head_induction_on with
      | refl =>
          by_cases hx : x = target
          · rw [hx]
          · exact .single ⟨hx, Or.inl ⟨hlast, rfl⟩⟩
      | @head a c hforward _ ih =>
          by_cases ha : a = target
          · rw [ha]
          · by_cases hedge : edge a target
            · exact .single ⟨ha, Or.inl ⟨hedge, rfl⟩⟩
            · exact .head ⟨ha, Or.inr ⟨hedge, hforward⟩⟩ ih

end CSE320.Lib
