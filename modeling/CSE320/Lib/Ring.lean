import Mathlib.Data.List.Chain
import Mathlib.Data.List.Nodup

namespace CSE320.Lib

variable {α : Type}

def Linked (nx pv : α → α) (u v : α) : Prop := nx u = v ∧ pv v = u

-- A circular doubly linked list with a head that holds no data. The two
-- functions are the fields next and prev.
def Ring (nx pv : α → α) (h : α) (xs : List α) : Prop :=
  List.IsChain (Linked nx pv) (h :: (xs ++ [h]))

variable {nx pv nx' pv' : α → α} {h x p c : α} {xs first second front back : List α}

-- A chain reads next of every element but the last and prev of every element
-- but the first.
theorem chain_transport {l : List α} (hl : List.IsChain (Linked nx pv) l)
    (hnx : ∀ u ∈ l.dropLast, nx' u = nx u) (hpv : ∀ u ∈ l.tail, pv' u = pv u) :
    List.IsChain (Linked nx' pv') l := by
  induction hl with
  | nil => exact .nil
  | singleton a => exact .singleton a
  | @cons_cons a b rest hab hrest ih =>
      have ha : nx' a = nx a := hnx a (by simp)
      have hb : pv' b = pv b := hpv b (by simp)
      refine .cons_cons ⟨ha.trans hab.1, hb.trans hab.2⟩ (ih (fun u hu => ?_) (fun u hu => ?_))
      · apply hnx u
        rw [List.dropLast_cons_of_ne_nil (by simp)]
        exact List.mem_cons_of_mem _ hu
      · exact hpv u (List.mem_cons_of_mem _ hu)

theorem Ring.congr (hr : Ring nx pv h xs) (hsame : ∀ u ∈ h :: xs, nx' u = nx u ∧ pv' u = pv u) :
    Ring nx' pv' h xs := by
  refine chain_transport hr (fun u hu => (hsame u ?_).1) (fun u hu => (hsame u ?_).2)
  · rwa [← List.cons_append, List.dropLast_concat] at hu
  · rw [List.tail_cons, List.mem_append, List.mem_singleton] at hu
    exact List.mem_cons.mpr hu.symm

-- The two ends of a cut through the ring: the element before it and the one
-- behind it.
theorem cut_before (h : α) (first : List α) : ∃ front p, h :: first = front ++ [p] := by
  rcases List.eq_nil_or_concat (h :: first) with hnil | ⟨front, p, hp⟩
  · cases hnil
  · exact ⟨front, p, by rw [hp, List.concat_eq_append]⟩

theorem cut_behind (h : α) (second : List α) : ∃ c back, second ++ [h] = c :: back := by
  cases second with
  | nil => exact ⟨h, [], rfl⟩
  | cons c rest => exact ⟨c, rest ++ [h], rfl⟩

theorem Ring.cut (hr : Ring nx pv h (first ++ second)) (hp : h :: first = front ++ [p])
    (hc : second ++ [h] = c :: back) :
    List.IsChain (Linked nx pv) (front ++ [p]) ∧ Linked nx pv p c ∧
      List.IsChain (Linked nx pv) (c :: back) := by
  unfold Ring at hr
  rw [List.append_assoc, ← List.cons_append, hp, hc, List.append_assoc, List.singleton_append] at hr
  exact List.isChain_append_cons_cons.mp hr

theorem Ring.around (hr : Ring nx pv h (first ++ x :: second)) (hp : h :: first = front ++ [p])
    (hc : second ++ [h] = c :: back) :
    List.IsChain (Linked nx pv) (front ++ [p]) ∧ Linked nx pv p x ∧ Linked nx pv x c ∧
      List.IsChain (Linked nx pv) (c :: back) := by
  have hcut := hr.cut hp (show x :: second ++ [h] = x :: c :: back by rw [List.cons_append, hc])
  exact ⟨hcut.1, hcut.2.1, List.isChain_cons_cons.mp hcut.2.2⟩

-- The two halves of a cut ring survive changes of next at p and of prev at c.
theorem halves_transport (hnodup : (h :: (first ++ second)).Nodup)
    (hp : h :: first = front ++ [p]) (hc : second ++ [h] = c :: back)
    (hfront : List.IsChain (Linked nx pv) (front ++ [p]))
    (hback : List.IsChain (Linked nx pv) (c :: back))
    (hnx : ∀ u ∈ h :: (first ++ second), u ≠ p → nx' u = nx u)
    (hpv : ∀ u ∈ h :: (first ++ second), u ≠ c → pv' u = pv u) :
    List.IsChain (Linked nx' pv') (front ++ [p]) ∧ List.IsChain (Linked nx' pv') (c :: back) := by
  rw [← List.cons_append] at hnodup hnx hpv
  obtain ⟨hfirst, hsecond, hdisjoint⟩ := List.nodup_append.mp hnodup
  have hpmem : p ∈ h :: first := by
    rw [hp]
    exact List.mem_append_right _ (List.mem_singleton_self p)
  have hcmem : c ∈ second ++ [h] := by
    rw [hc]
    exact List.mem_cons_self
  have hround : (second ++ [h]).Nodup := by
    refine List.Nodup.append hsecond (List.nodup_singleton h) fun u hu hh => ?_
    rw [List.mem_singleton] at hh
    exact hdisjoint u (hh ▸ List.mem_cons_self) u hu rfl
  constructor
  · refine chain_transport hfront (fun u hu => ?_) (fun u hu => ?_)
    · rw [List.dropLast_concat] at hu
      have hmem : u ∈ h :: first := by
        rw [hp]
        exact List.mem_append_left _ hu
      refine hnx u (List.mem_append_left _ hmem) fun he => ?_
      rw [hp] at hfirst
      exact (List.nodup_append.mp hfirst).2.2 u hu p (List.mem_singleton_self p) he
    · rw [← hp, List.tail_cons] at hu
      have hmem : u ∈ h :: first := List.mem_cons_of_mem _ hu
      refine hpv u (List.mem_append_left _ hmem) fun he => ?_
      subst he
      rcases List.mem_append.mp hcmem with hc' | hc'
      · exact hdisjoint u hmem u hc' rfl
      · rw [List.mem_singleton] at hc'
        exact (List.nodup_cons.mp hfirst).1 (hc' ▸ hu)
  · refine chain_transport hback (fun u hu => ?_) (fun u hu => ?_)
    · rw [← hc, List.dropLast_concat] at hu
      exact hnx u (List.mem_append_right _ hu) fun he => hdisjoint p hpmem u hu he.symm
    · rw [List.tail_cons] at hu
      have hmem : u ∈ second ++ [h] := by
        rw [hc]
        exact List.mem_cons_of_mem _ hu
      have hring : u ∈ h :: first ++ second := by
        rcases List.mem_append.mp hmem with hu' | hu'
        · exact List.mem_append_right _ hu'
        · rw [List.mem_singleton] at hu'
          exact hu' ▸ List.mem_cons_self
      refine hpv u hring fun he => ?_
      rw [hc, List.nodup_cons] at hround
      exact hround.1 (he ▸ hu)

theorem Ring.insert (hr : Ring nx pv h (first ++ second)) (hnodup : (h :: (first ++ second)).Nodup)
    (hp : h :: first = front ++ [p]) (hc : second ++ [h] = c :: back)
    (hnx : ∀ u ∈ h :: (first ++ second), u ≠ p → nx' u = nx u)
    (hpv : ∀ u ∈ h :: (first ++ second), u ≠ c → pv' u = pv u)
    (hpx : Linked nx' pv' p x) (hxc : Linked nx' pv' x c) :
    Ring nx' pv' h (first ++ x :: second) := by
  obtain ⟨hfront, -, hback⟩ := hr.cut hp hc
  obtain ⟨hfront, hback⟩ := halves_transport hnodup hp hc hfront hback hnx hpv
  unfold Ring
  rw [List.append_assoc, List.cons_append, hc, ← List.cons_append, hp, List.append_assoc,
    List.singleton_append]
  exact List.isChain_append_cons_cons.mpr ⟨hfront, hpx, .cons_cons hxc hback⟩

theorem Ring.remove (hr : Ring nx pv h (first ++ x :: second))
    (hnodup : (h :: (first ++ x :: second)).Nodup)
    (hp : h :: first = front ++ [p]) (hc : second ++ [h] = c :: back)
    (hnx : ∀ u ∈ h :: (first ++ second), u ≠ p → nx' u = nx u)
    (hpv : ∀ u ∈ h :: (first ++ second), u ≠ c → pv' u = pv u)
    (hpc : Linked nx' pv' p c) : Ring nx' pv' h (first ++ second) := by
  have hsub : (h :: (first ++ second)).Nodup :=
    hnodup.sublist (((List.sublist_cons_self x second).append_left first).cons_cons h)
  obtain ⟨hfront, hrest⟩ := hr.around hp hc
  obtain ⟨hfront, hback⟩ := halves_transport hsub hp hc hfront hrest.2.2 hnx hpv
  unfold Ring
  rw [List.append_assoc, hc, ← List.cons_append, hp, List.append_assoc, List.singleton_append]
  exact List.isChain_append_cons_cons.mpr ⟨hfront, hpc, hback⟩

-- The elements of a ring are determined by next.
theorem chain_unique {a : α} (hxs : List.IsChain (Linked nx pv) (a :: (xs ++ [h])))
    (hys : List.IsChain (Linked nx pv) (a :: (ys ++ [h]))) (hx : h ∉ xs) (hy : h ∉ ys) :
    xs = ys := by
  induction xs generalizing a ys with
  | nil =>
      cases ys with
      | nil => rfl
      | cons y ys =>
          have hyh : y = h :=
            (List.isChain_cons_cons.mp hys).1.1.symm.trans (List.isChain_cons_cons.mp hxs).1.1
          exact absurd (by simp [hyh]) hy
  | cons x xs ih =>
      cases ys with
      | nil =>
          have hxh : x = h :=
            (List.isChain_cons_cons.mp hxs).1.1.symm.trans (List.isChain_cons_cons.mp hys).1.1
          exact absurd (by simp [hxh]) hx
      | cons y ys =>
          obtain rfl : x = y :=
            (List.isChain_cons_cons.mp hxs).1.1.symm.trans (List.isChain_cons_cons.mp hys).1.1
          rw [List.mem_cons, not_or] at hx hy
          rw [ih (List.isChain_cons_cons.mp hxs).2 (List.isChain_cons_cons.mp hys).2 hx.2 hy.2]

theorem Ring.next_head (hr : Ring nx pv h xs) (hc : xs ++ [h] = c :: back) : nx h = c := by
  unfold Ring at hr
  rw [hc] at hr
  exact (List.isChain_cons_cons.mp hr).1.1

theorem Ring.prev_head (hr : Ring nx pv h xs) (hp : h :: xs = front ++ [p]) : pv h = p := by
  unfold Ring at hr
  rw [← List.cons_append, hp, List.append_assoc, List.singleton_append] at hr
  exact (List.isChain_append_cons_cons.mp hr).2.1.2

theorem Ring.next_eq_head_iff (hr : Ring nx pv h xs) (hh : h ∉ xs) : nx h = h ↔ xs = [] := by
  cases xs with
  | nil => simp [hr.next_head rfl]
  | cons x xs =>
      rw [hr.next_head rfl]
      simp only [List.mem_cons, not_or] at hh
      simp [Ne.symm hh.1]

-- Next and prev of the head agree when the ring has at most one element.
theorem Ring.next_eq_prev_iff (hr : Ring nx pv h xs) (hnodup : (h :: xs).Nodup) :
    nx h = pv h ↔ xs.length ≤ 1 := by
  rcases xs with _ | ⟨x, _ | ⟨y, rest⟩⟩
  · rw [hr.next_head rfl, hr.prev_head (show [h] = [] ++ [h] from rfl)]
    simp
  · rw [hr.next_head rfl, hr.prev_head (show [h, x] = [h] ++ [x] from rfl)]
    simp
  · obtain ⟨front, p, hp⟩ := cut_before y rest
    have hpmem : p ∈ y :: rest := by
      rw [hp]
      exact List.mem_append_right _ (List.mem_singleton_self p)
    have hx : x ≠ p := by
      rintro rfl
      exact (List.nodup_cons.mp (List.nodup_cons.mp hnodup).2).1 hpmem
    have hlast : h :: x :: y :: rest = (h :: x :: front) ++ [p] := by
      rw [hp]
      rfl
    rw [hr.next_head rfl, hr.prev_head hlast]
    simp [hx]

end CSE320.Lib
