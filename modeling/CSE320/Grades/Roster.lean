import CSE320.Grades.Sorted
import Mathlib.Algebra.Order.Field.Rat
import Mathlib.Order.Basic

namespace CSE320.Grades

open Lib

-- A comparison decides, and the ties are left to another one.
theorem TotalCompare.lex {α : Type} {first second : α → α → Int} (hfirst : TotalCompare first)
    (hsecond : TotalCompare second) : TotalCompare fun a b => if first a b ≠ 0 then first a b
    else second a b := by
  have hstrict {a b c : α} (hab : first a b < 0) (hbc : first b c ≤ 0) : first a c < 0 := by
    by_contra hnot
    have hca : first c a ≤ 0 := (hfirst.nonneg a c).mp (by omega)
    have hba := hfirst.trans b c a hbc hca
    have hgreater := (hfirst.antisymm a b).mp hab
    omega
  have hstrict' {a b c : α} (hab : first a b ≤ 0) (hbc : first b c < 0) : first a c < 0 := by
    by_contra hnot
    have hca : first c a ≤ 0 := (hfirst.nonneg a c).mp (by omega)
    have hcb := hfirst.trans c a b hca hab
    have hgreater := (hfirst.antisymm b c).mp hbc
    omega
  constructor
  · intro a b
    have h := hfirst.antisymm a b
    have h' := hfirst.antisymm b a
    have htie := hsecond.antisymm a b
    split <;> split <;> omega
  · intro a b c hab hbc
    have htie := hsecond.trans a b c
    have hle := hfirst.trans a b c
    split at hab <;> split at hbc
    · have hlt := hstrict (a := a) (b := b) (c := c) (by omega) hbc
      rw [if_pos (by omega)]
      omega
    · have hlt := hstrict (a := a) (b := b) (c := c) (by omega) (by omega)
      rw [if_pos (by omega)]
      omega
    · have hlt := hstrict' (a := a) (b := b) (c := c) (by omega) (by omega)
      rw [if_pos (by omega)]
      omega
    · split
      · exact hle (by omega) (by omega)
      · exact htie hab hbc

theorem TotalCompare.comap {α β : Type} {compare : β → β → Int} (h : TotalCompare compare)
    (f : α → β) :
    TotalCompare fun a b => compare (f a) (f b) :=
  ⟨fun a b => h.antisymm (f a) (f b), fun a b c => h.trans (f a) (f b) (f c)⟩

theorem strcmp_total : TotalCompare strcmp := by
  constructor
  · intro s t
    induction s generalizing t with
    | nil => cases t <;> simp [strcmp]
    | cons c s ih =>
        cases t with
        | nil => simp [strcmp]
        | cons d t =>
            by_cases heq : c = d
            · simp only [strcmp, if_pos heq, if_pos heq.symm]
              exact ih t
            · have hne : c.toNat ≠ d.toNat := fun h => heq (BitVec.eq_of_toNat_eq h)
              simp only [strcmp, if_neg heq, if_neg (Ne.symm heq)]
              split <;> split <;> omega
  · intro s t u
    induction s generalizing t u with
    | nil => cases u <;> simp [strcmp]
    | cons c s ih =>
        cases t with
        | nil => simp [strcmp]
        | cons d t =>
            cases u with
            | nil => simp [strcmp]
            | cons e u =>
                have hcd : c ≠ d → c.toNat ≠ d.toNat := fun hne h => hne (BitVec.eq_of_toNat_eq h)
                have hde : d ≠ e → d.toNat ≠ e.toNat := fun hne h => hne (BitVec.eq_of_toNat_eq h)
                simp only [strcmp]
                by_cases heq : c = d
                · subst heq
                  by_cases heq' : c = e
                  · simp only [if_pos heq', if_true]
                    exact ih t u
                  · simp only [if_true, if_neg heq']
                    exact fun _ h => h
                · by_cases heq' : d = e
                  · subst heq'
                    simp only [if_neg heq]
                    exact fun h _ => h
                  · simp only [if_neg heq, if_neg heq']
                    have h := hcd heq
                    have h' := hde heq'
                    intro hst htu
                    split at hst <;> split at htu
                    · rw [if_neg (fun hce => by have hsame := congrArg BitVec.toNat hce; omega),
                        if_pos (by omega)]
                      decide
                    all_goals omega

section

variable {P : Type} {n : Nat} (student : P → Student ℚ n)

theorem comparename_total : TotalCompare fun p q => comparename (student p) (student q) :=
  ((strcmp_total.comap Student.surname).lex (strcmp_total.comap Student.name)).comap student

theorem compareid_total : TotalCompare fun p q => compareid (student p) (student q) :=
  (strcmp_total.comap Student.id).comap student

theorem comparescore_nonpos (s t : Student ℚ n) :
    comparescore s t ≤ 0 ↔ t.composite ≤ s.composite := by
  rw [comparescore]
  rcases lt_trichotomy t.composite s.composite with h | h | h
  · simp [h, h.le]
  · simp [h]
  · simp [h, h.not_gt, h.not_ge]

theorem comparescore_total : TotalCompare fun p q => comparescore (student p) (student q) := by
  constructor
  · intro p q
    simp only [comparescore]
    rcases lt_trichotomy (student p).composite (student q).composite with h | h | h
    · simp [h, h.not_gt]
    · simp [h]
    · simp [h, h.not_gt]
  · intro p q r hpq hqr
    rw [comparescore_nonpos] at *
    exact hqr.trans hpq

end

section

variable {P : Type} {next : P → Option P} {p : Option P} {xs : List P} {stab : Nat → P}

theorem countStudents_chain (hxs : Chain next p xs) {bound : Nat} (hbound : xs.length < bound) :
    countStudents next bound p = some xs.length := by
  induction xs generalizing p bound with
  | nil =>
      obtain rfl : p = none := hxs
      obtain ⟨bound, rfl⟩ : ∃ b, bound = b + 1 := ⟨bound - 1, by simp at hbound; omega⟩
      rfl
  | cons x xs ih =>
      obtain ⟨rfl, hrest⟩ := hxs
      obtain ⟨bound, rfl⟩ : ∃ b, bound = b + 1 := ⟨bound - 1, by omega⟩
      rw [countStudents, ih hrest (by simpa using hbound)]
      rfl

-- The table holds the list from its end on.
theorem fillTable_chain (hxs : Chain next p xs) (table : Nat → P) :
    ∃ stab, fillTable next xs.length p table = some stab ∧ segment stab 0 xs.length = xs.reverse ∧
      ∀ i, xs.length ≤ i → stab i = table i := by
  induction xs generalizing p table with
  | nil => exact ⟨table, rfl, rfl, fun _ _ => rfl⟩
  | cons x xs ih =>
      obtain ⟨rfl, hrest⟩ := hxs
      obtain ⟨stab, hfill, hsegment, hkept⟩ := ih hrest (Function.update table xs.length x)
      refine ⟨stab, hfill, ?_, fun i hi => ?_⟩
      · have hlast : stab xs.length = x := by rw [hkept _ (Nat.le_refl _), Function.update_self]
        rw [List.length_cons, segment_append, hsegment, List.reverse_cons, Nat.zero_add]
        exact congrArg _ (congrArg (fun y => [y]) hlast)
      · rw [List.length_cons] at hi
        rw [hkept i (by omega), Function.update_of_ne (by omega)]

theorem segment_pairwise {compare : P → P → Int} {low high : Nat}
    (h : Ascending compare stab low high) :
    (segment stab low (high - low)).Pairwise fun x y => compare x y ≤ 0 := by
  rw [segment, List.pairwise_map]
  refine (List.pairwise_lt_range' (s := low) (n := high - low)).imp_of_mem fun hi hj hij => ?_
  have hlow := (List.mem_range'_1.mp hi).1
  have hhigh := (List.mem_range'_1.mp hj).2
  exact h _ _ hlow hij (by omega)

-- A larger bound changes nothing.
theorem countStudents_mono {bound bound' count : Nat} (hbound : bound ≤ bound')
    (h : countStudents next bound p = some count) : countStudents next bound' p = some count := by
  induction bound generalizing p bound' count with
  | zero => cases h
  | succ bound ih =>
      obtain ⟨bound', rfl⟩ : ∃ b, bound' = b + 1 := ⟨bound' - 1, by omega⟩
      cases p with
      | none => exact h
      | some sp =>
          obtain ⟨k, hk, rfl⟩ := Option.map_eq_some_iff.mp h
          rw [countStudents, ih (by omega) hk]
          rfl

theorem sorttable_mono {compare : P → P → Int} {depth depth' low high : Nat} {stab' : Nat → P}
    (hdepth : depth ≤ depth') (h : sorttable compare depth stab low high = some stab') :
    sorttable compare depth' stab low high = some stab' := by
  induction depth generalizing depth' stab low high stab' with
  | zero => cases h
  | succ depth ih =>
      obtain ⟨depth', rfl⟩ : ∃ d, depth' = d + 1 := ⟨depth' - 1, by omega⟩
      rw [sorttable_succ] at h ⊢
      by_cases hempty : low = high
      · rwa [if_pos hempty] at h ⊢
      · rw [if_neg hempty] at h ⊢
        by_cases hone : low + 1 = high
        · rwa [if_pos hone] at h ⊢
        · rw [if_neg hone] at h ⊢
          obtain ⟨stab₁, hfront, hback⟩ := Option.bind_eq_some_iff.mp h
          rw [ih (by omega) hfront, Option.bind_some, ih (by omega) hback]

variable [DecidableEq P]

theorem relink_spec (stab : Nat → P) (left i : Nat) (sp : P) (next : P → Option P)
    (hnodup : (sp :: segment stab i left).Nodup) :
    Chain (relink stab left i sp next) (some sp) (sp :: segment stab i left) ∧
      ∀ x, x ∉ sp :: segment stab i left → relink stab left i sp next x = next x := by
  induction left generalizing i sp next with
  | zero =>
      refine ⟨⟨rfl, Function.update_self _ _ _⟩,
        fun x hx => Function.update_of_ne (fun heq => hx ?_) _ _⟩
      rw [heq]
      exact List.mem_cons_self
  | succ left ih =>
      have hcons : segment stab i (left + 1) = stab i :: segment stab (i + 1) left := by
        rw [segment, List.range'_succ]
        rfl
      rw [hcons] at hnodup ⊢
      obtain ⟨hnot, hrest⟩ := List.nodup_cons.mp hnodup
      obtain ⟨hchain, hkept⟩ := ih (i + 1) (stab i) (Function.update next sp (some (stab i))) hrest
      refine ⟨⟨rfl, ?_⟩, fun x hx => ?_⟩
      · rw [relink, hkept sp hnot, Function.update_self]
        exact hchain
      · obtain ⟨hne, hx⟩ := List.ne_and_not_mem_of_not_mem_cons hx
        rw [relink, hkept x hx, Function.update_of_ne hne]

-- The students that are not in the list keep their links.
theorem sortroster_spec {compare : P → P → Int} (hcompare : TotalCompare compare)
    (hxs : Chain next p xs) (table : Nat → P) (bound : Nat) (hbound : 2 * xs.length < bound) :
    ∃ s next' ys, sortroster compare bound table p next = some (s, next') ∧ Chain next' s ys ∧
      ys.Perm xs ∧
      ys.Pairwise (fun x y => compare x y ≤ 0) ∧ ∀ x, x ∉ xs → next' x = next x := by
  have hcount : countStudents next bound p = some xs.length := countStudents_chain hxs (by omega)
  by_cases hempty : xs = []
  · subst hempty
    refine ⟨none, next, [], ?_, rfl, .refl _, .nil, fun _ _ => rfl⟩
    rw [sortroster, hcount]
    rfl
  · obtain ⟨stab, hfill, hsegment, -⟩ := fillTable_chain hxs table
    obtain ⟨stab', hsort, hrearranged, hasc⟩ :=
      sorttable_sorts hcompare xs.length bound hbound 0 stab
    rw [Nat.zero_add] at hsort hasc
    have hpos : 0 < xs.length := List.length_pos_iff.mpr hempty
    have hperm : (segment stab' 0 xs.length).Perm xs := by
      have hreverse := hrearranged.perm
      rw [hsegment] at hreverse
      exact hreverse.trans (List.reverse_perm xs)
    have hcons : segment stab' 0 xs.length = stab' 0 :: segment stab' 1 (xs.length - 1) := by
      obtain ⟨k, hk⟩ : ∃ k, xs.length = k + 1 := ⟨xs.length - 1, by omega⟩
      rw [hk, segment, List.range'_succ]
      rfl
    rw [hcons] at hperm
    obtain ⟨hchain, hkept⟩ :=
      relink_spec stab' (xs.length - 1) 1 (stab' 0) next (hperm.nodup_iff.mpr hxs.nodup)
    refine ⟨_, _, _, ?_, hchain, hperm, ?_,
      fun x hx => hkept x fun hmem => hx (hperm.mem_iff.mp hmem)⟩
    · rw [sortroster, hcount]
      simp only [Option.bind_eq_bind, Option.bind_some, if_neg hpos.ne', hfill, hsort]
      rfl
    · rw [← hcons]
      exact segment_pairwise hasc

theorem sortroster_mono {compare : P → P → Int} {table : Nat → P} {bound bound' : Nat}
    {result : Option P × (P → Option P)} (hbound : bound ≤ bound')
    (h : sortroster compare bound table p next = some result) :
    sortroster compare bound' table p next = some result := by
  obtain ⟨count, hcount, h⟩ := Option.bind_eq_some_iff.mp h
  rw [sortroster, countStudents_mono hbound hcount, Option.bind_eq_bind, Option.bind_some]
  by_cases hzero : count = 0
  · rwa [if_pos hzero] at h ⊢
  · rw [if_neg hzero] at h ⊢
    obtain ⟨stab, hfill, h⟩ := Option.bind_eq_some_iff.mp h
    obtain ⟨stab', hsort, h⟩ := Option.bind_eq_some_iff.mp h
    rw [hfill, Option.bind_eq_bind, Option.bind_some, sorttable_mono hbound hsort]
    exact h

-- Sorting ends with the students in order, whatever was in the table.
theorem sortroster_sorts {n : Nat} (student : P → Student ℚ n) :
    (TotalCompare (fun p q => comparename (student p) (student q)) ∧
      TotalCompare (fun p q => compareid (student p) (student q)) ∧
      TotalCompare fun p q => comparescore (student p) (student q)) ∧
    ∀ compare : P → P → Int, TotalCompare compare → ∀ next s xs, Chain next s xs →
      ∀ table, ∃ N s' next' ys, (∀ bound, N ≤ bound →
      sortroster compare bound table s next = some (s', next')) ∧
      Chain next' s' ys ∧ ys.Nodup ∧ ys.Perm xs ∧ ys.Pairwise fun p q => compare p q ≤ 0 := by
  refine ⟨⟨comparename_total student, compareid_total student, comparescore_total student⟩, ?_⟩
  intro compare hcompare next s xs hxs table
  obtain ⟨s', next', ys, hsort, hchain, hperm, hordered, -⟩ :=
    sortroster_spec hcompare hxs table (2 * xs.length + 1) (Nat.lt_succ_self _)
  exact ⟨2 * xs.length + 1, s', next', ys, fun bound hbound => sortroster_mono hbound hsort, hchain,
    hchain.nodup, hperm, hordered⟩

end

-- The roster of two students that are entered in the wrong order.
theorem sortroster_sorts_two :
    ∃ N s' next' ys, (∀ bound, N ≤ bound →
        sortroster (fun p q : Bool => comparename (n := 0) (F :=
          ℚ) ⟨[], if p then [97] else [98], [], [], [], 0⟩
          ⟨[], if q then [97] else [98], [], [], [], 0⟩) bound (fun _ => true) (some false)
          (fun p => if p then none else some true) = some (s', next')) ∧
      Chain next' s' ys ∧ ys.Nodup ∧ ys.Perm [false, true] ∧
      ys.Pairwise fun p q => comparename (n := 0) (F :=
        ℚ) ⟨[], if p then [97] else [98], [], [], [], 0⟩
        ⟨[], if q then [97] else [98], [], [], [], 0⟩ ≤ 0 := by
  have h := sortroster_sorts (n := 0) fun p : Bool => ⟨[], if p then [97] else [98], [], [], [], 0⟩
  exact h.2 _ h.1.1 (fun p => if p then none
    else some true) (some false) [false, true] ⟨rfl, rfl, rfl⟩ fun _ => true

end CSE320.Grades
