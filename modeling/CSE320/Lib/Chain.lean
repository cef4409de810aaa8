import Mathlib.Data.List.Nodup
import Mathlib.Logic.Function.Basic

namespace CSE320.Lib

variable {α : Type}

-- A singly linked list that ends with NULL: a pointer leads along next to these nodes.
def Chain (next : α → Option α) : Option α → List α → Prop
  | p, [] => p = none
  | p, x :: xs => p = some x ∧ Chain next (next x) xs

-- A piece of a list: a pointer leads along next through these nodes to another pointer.
def Segment (next : α → Option α) : Option α → List α → Option α → Prop
  | p, [], q => p = q
  | p, x :: xs, q => p = some x ∧ Segment next (next x) xs q

variable {next next' : α → Option α} {p q : Option α} {x y : α} {xs ys front : List α}

theorem Chain.unique (hxs : Chain next p xs) (hys : Chain next p ys) : xs = ys := by
  induction xs generalizing p ys with
  | nil =>
      cases ys with
      | nil => rfl
      | cons y ys =>
          obtain ⟨hy, -⟩ := hys
          rw [show p = none from hxs] at hy
          cases hy
  | cons x xs ih =>
      obtain ⟨rfl, hrest⟩ := hxs
      cases ys with
      | nil => cases hys
      | cons y ys =>
          obtain ⟨hy, hrest'⟩ := hys
          obtain rfl := Option.some.inj hy
          rw [ih hrest hrest']

theorem Chain.suffix (front : List α) (h : Chain next p (front ++ x :: xs)) :
    Chain next (some x) (x :: xs) := by
  induction front generalizing p with
  | nil =>
      obtain ⟨rfl, hrest⟩ := h
      exact ⟨rfl, hrest⟩
  | cons y front ih => exact ih h.2

-- A chain that ends is acyclic.
theorem Chain.nodup (h : Chain next p xs) : xs.Nodup := by
  induction xs generalizing p with
  | nil => exact List.nodup_nil
  | cons x xs ih =>
      refine List.nodup_cons.mpr ⟨fun hmem => ?_, ih h.2⟩
      obtain ⟨front, back, rfl⟩ := List.append_of_mem hmem
      have hsame := Chain.unique (Chain.suffix [] h) (Chain.suffix (x :: front) h)
      have hlength := congrArg List.length hsame
      simp only [List.length_cons, List.length_append] at hlength
      omega

theorem segment_none : Segment next p xs none ↔ Chain next p xs := by
  induction xs generalizing p with
  | nil => exact Iff.rfl
  | cons x xs ih => exact and_congr_right' ih

theorem segment_concat :
    Segment next p (xs ++ [x]) q ↔ Segment next p xs (some x) ∧ next x = q := by
  induction xs generalizing p with
  | nil => exact Iff.rfl
  | cons y xs ih => exact (and_congr_right' ih).trans and_assoc.symm

theorem Segment.congr (h : Segment next p xs q) (hsame : ∀ x ∈ xs, next' x = next x) :
    Segment next' p xs q := by
  induction xs generalizing p with
  | nil => exact h
  | cons x xs ih =>
      refine ⟨h.1, ?_⟩
      rw [hsame x List.mem_cons_self]
      exact ih h.2 fun y hy => hsame y (List.mem_cons_of_mem x hy)

theorem Chain.congr (h : Chain next p xs) (hsame : ∀ x ∈ xs, next' x = next x) :
    Chain next' p xs :=
  segment_none.mp ((segment_none.mpr h).congr hsame)

-- A list that ends goes through the piece.
theorem Segment.chain (h : Segment next p xs q) (hys : Chain next p ys) :
    ∃ back, ys = xs ++ back ∧ Chain next q back := by
  induction xs generalizing p ys with
  | nil =>
      obtain rfl : p = q := h
      exact ⟨ys, rfl, hys⟩
  | cons x xs ih =>
      obtain ⟨rfl, hrest⟩ := h
      cases ys with
      | nil => cases hys
      | cons y ys =>
          obtain ⟨hy, hback⟩ := hys
          obtain rfl := Option.some.inj hy
          obtain ⟨back, rfl, hchain⟩ := ih hrest hback
          exact ⟨back, rfl, hchain⟩

variable [DecidableEq α]

-- A node that is not in the chain may lead anywhere.
theorem Chain.update (h : Chain next p xs) (hx : x ∉ xs) (q : Option α) :
    Chain (Function.update next x q) p xs :=
  h.congr fun _ hy => Function.update_of_ne (ne_of_mem_of_not_mem hy hx) _ _

-- The last node of a chain takes another one behind it.
theorem Chain.append (h : Chain next p (front ++ [x])) (hy : y ∉ front ++ [x]) :
    Chain (Function.update (Function.update next x (some y)) y none) p (front ++ [x, y]) := by
  have hnodup := h.nodup
  induction front generalizing p with
  | nil =>
      have hne : x ≠ y := fun heq => hy (heq ▸ List.mem_cons_self)
      refine ⟨h.1, ?_, ?_⟩
      · rw [Function.update_of_ne hne, Function.update_self]
      · exact Function.update_self _ _ _
  | cons z front ih =>
      rw [List.cons_append, List.nodup_cons] at hnodup
      have hzx : z ≠ x := fun heq => hnodup.1 (by simp [heq])
      have hzy : z ≠ y := fun heq => hy (heq ▸ List.mem_cons_self)
      refine ⟨h.1, ?_⟩
      rw [Function.update_of_ne hzy, Function.update_of_ne hzx]
      exact ih h.2 (fun hmem => hy (List.mem_cons_of_mem z hmem)) hnodup.2

end CSE320.Lib
