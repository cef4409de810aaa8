import CSE320.Grades.Sort
import Mathlib.Data.List.Perm.Basic
import Mathlib.Data.List.Range

namespace CSE320.Grades

variable {P : Type}

-- The result is negative, zero or positive for less, a tie or greater.
structure TotalCompare (compare : P → P → Int) : Prop where
  antisymm : ∀ a b, compare a b < 0 ↔ 0 < compare b a
  trans : ∀ a b c, compare a b ≤ 0 → compare b c ≤ 0 → compare a c ≤ 0

-- The entries of a table from an index on.
def segment (stab : Nat → P) (low count : Nat) : List P := (List.range' low count).map stab

-- Tables with the same students in a range, and the same entries outside.
structure Rearranged (low count : Nat) (stab stab' : Nat → P) : Prop where
  perm : (segment stab' low count).Perm (segment stab low count)
  outside : ∀ i, i < low ∨ low + count ≤ i → stab' i = stab i

-- A range without descents.
def Ascending (compare : P → P → Int) (stab : Nat → P) (low high : Nat) : Prop :=
  ∀ i j, low ≤ i → i < j → j < high → compare (stab i) (stab j) ≤ 0

variable {compare : P → P → Int} {pivot : P} {stab stab' stab₁ stab₂ : Nat → P}
  {low high l middle count count' : Nat} {alt : Int}

theorem mem_segment {x : P} : x ∈ segment stab low count ↔
    ∃ i, low ≤ i ∧ i < low + count ∧ stab i = x := by
  simp only [segment, List.mem_map, List.mem_range'_1, and_assoc]

theorem segment_append (stab : Nat → P) (low count count' : Nat) :
    segment stab low (count + count') = segment stab low count ++
      segment stab (low + count) count' := by
  simp only [segment, ← List.map_append, List.range'_append_1]

theorem segment_congr (h : ∀ i, low ≤ i → i < low + count → stab' i = stab i) :
    segment stab' low count = segment stab low count := by
  refine List.map_congr_left fun i hi => ?_
  obtain ⟨hlow, hhigh⟩ := List.mem_range'_1.mp hi
  exact h i hlow hhigh

namespace Rearranged

theorem refl (low count : Nat) (stab : Nat → P) : Rearranged low count stab stab :=
  ⟨.refl _, fun _ _ => rfl⟩

theorem trans (h : Rearranged low count stab stab₁) (h' : Rearranged low count stab₁ stab₂) :
    Rearranged low count stab stab₂ :=
  ⟨h'.perm.trans h.perm, fun i hi => (h'.outside i hi).trans (h.outside i hi)⟩

-- A change inside a part of the range.
theorem widen {start part : Nat} (h : Rearranged start part stab stab') (hlow : low ≤ start)
    (hhigh : start + part ≤ low + count) : Rearranged low count stab stab' := by
  obtain ⟨front, rfl⟩ := Nat.exists_eq_add_of_le hlow
  obtain ⟨back, hback⟩ := Nat.exists_eq_add_of_le hhigh
  obtain rfl : count = front + part + back := by omega
  refine ⟨?_, fun i hi => h.outside i (by omega)⟩
  have hfront : segment stab' low front = segment stab low front :=
    segment_congr fun i _ hi => h.outside i (Or.inl hi)
  have hrest : segment stab' (low + (front + part)) back =
      segment stab (low + (front + part)) back :=
    segment_congr fun i hi _ => h.outside i (Or.inr (by omega))
  rw [segment_append stab', segment_append stab, segment_append stab' low front,
    segment_append stab low front, hfront, hrest]
  exact (h.perm.append_left _).append_right _

theorem mem (h : Rearranged low count stab stab') {i : Nat} (hlow : low ≤ i)
    (hhigh : i < low + count) :
    ∃ j, low ≤ j ∧ j < low + count ∧ stab j = stab' i :=
  mem_segment.mp (h.perm.mem_iff.mp (mem_segment.mpr ⟨i, hlow, hhigh, rfl⟩))

theorem forall_of (h : Rearranged low count stab stab') {Q : P → Prop}
    (hQ : ∀ i, low ≤ i → i < low + count → Q (stab i)) {i : Nat} (hlow : low ≤ i)
    (hhigh : i < low + count) :
    Q (stab' i) := by
  obtain ⟨j, hj, hj', hsame⟩ := h.mem hlow hhigh
  rw [← hsame]
  exact hQ j hj hj'

end Rearranged

theorem exchange_eq (stab : Nat → P) (i j k : Nat) :
    exchange stab i j k = stab (Equiv.swap i j k) := by
  by_cases hi : k = i
  · subst hi
    rw [exchange, Function.update_self, Equiv.swap_apply_left]
  · by_cases hj : k = j
    · subst hj
      rw [exchange, Function.update_of_ne hi, Function.update_self, Equiv.swap_apply_right]
    · rw [exchange, Function.update_of_ne hi, Function.update_of_ne hj,
        Equiv.swap_apply_of_ne_of_ne hi hj]

theorem exchange_rearranged (stab : Nat → P) {i j : Nat} (hi : low ≤ i ∧ i < low + count)
    (hj : low ≤ j ∧ j < low + count) : Rearranged low count stab (exchange stab i j) := by
  have hrange (k : Nat) (hk : low ≤ k ∧ k < low + count) :
      low ≤ Equiv.swap i j k ∧ Equiv.swap i j k < low + count := by
    rw [Equiv.swap_apply_def]
    split
    · exact hj
    · split
      · exact hi
      · exact hk
  constructor
  · have hindices : ((List.range' low count).map (Equiv.swap i j)).Perm
        (List.range' low count) := by
      refine (List.perm_ext_iff_of_nodup ((List.nodup_range').map (Equiv.injective _))
        List.nodup_range').mpr fun k => ?_
      rw [List.mem_map]
      constructor
      · rintro ⟨k, hk, rfl⟩
        exact List.mem_range'_1.mpr (hrange k (List.mem_range'_1.mp hk))
      · intro hk
        exact ⟨Equiv.swap i j k, List.mem_range'_1.mpr (hrange k (List.mem_range'_1.mp hk)),
          Equiv.swap_apply_self i j k⟩
    have hsegment : segment (exchange stab i j) low count =
        ((List.range' low count).map (Equiv.swap i j)).map stab := by
      rw [segment, List.map_map]
      exact List.map_congr_left fun k _ => exchange_eq stab i j k
    rw [hsegment]
    exact hindices.map stab
  · intro k hk
    rw [exchange_eq, Equiv.swap_apply_of_ne_of_ne (by omega) (by omega)]

theorem exchange_left (stab : Nat → P) (i j : Nat) : exchange stab i j i = stab j :=
  Function.update_self _ _ _

theorem exchange_right (stab : Nat → P) (i j : Nat) : exchange stab i j j = stab i := by
  rw [exchange_eq, Equiv.swap_apply_right]

theorem exchange_other (stab : Nat → P) {i j k : Nat} (hi : k ≠ i) (hj : k ≠ j) :
    exchange stab i j k = stab k := by
  rw [exchange_eq, Equiv.swap_apply_of_ne_of_ne hi hj]

section

variable (hcompare : TotalCompare compare)
include hcompare

theorem TotalCompare.self (a : P) : compare a a = 0 := by
  have h := hcompare.antisymm a a
  omega

theorem TotalCompare.nonneg (a b : P) : 0 ≤ compare a b ↔ compare b a ≤ 0 := by
  have h := hcompare.antisymm a b
  omega

end

-- What the loop of partition leaves: the low end, the high end, and the students that
-- are where they were.
structure Partitioned (compare : P → P → Int) (pivot : P) (l left : Nat) (stab : Nat → P)
    (result : Nat × (Nat → P)) :
    Prop where
  bounds : l ≤ result.1 ∧ result.1 ≤ l + left
  rearranged : Rearranged l left stab result.2
  low : ∀ i, l ≤ i → i < result.1 → compare (result.2 i) pivot ≤ 0
  high : ∀ i, result.1 ≤ i → i < l + left → 0 ≤ compare (result.2 i) pivot

-- The first tie goes to the high end, and the ties take turns.
theorem partitionLoop_spec (compare : P → P → Int) (pivot : P) (left l : Nat) (alt : Int)
    (stab : Nat → P) :
    Partitioned compare pivot l left stab (partitionLoop compare pivot left l alt stab) := by
  induction left generalizing l alt stab with
  | zero =>
      refine ⟨⟨Nat.le_refl l, Nat.le_refl l⟩, .refl _ _ _, fun i hl hr => ?_, fun i hl hr => ?_⟩
      all_goals
        simp only [partitionLoop] at hl hr
        omega
  | succ left ih =>
      rw [partitionLoop]
      split
      rename_i c alt' hc
      split
      · -- the entry goes to the high end
        rename_i hpos
        have hnonneg : 0 ≤ compare (stab l) pivot := by
          split at hc
          · omega
          · obtain ⟨rfl, -⟩ := Prod.mk.inj hc
            omega
        obtain ⟨hbounds, hrearranged, hlow, hhigh⟩ := ih l alt' (exchange stab l (l + left))
        have hexchange : Rearranged l (left + 1) stab (exchange stab l (l + left)) :=
          exchange_rearranged stab (by omega) (by omega)
        refine ⟨by omega, hexchange.trans (hrearranged.widen (Nat.le_refl l) (by omega)), hlow,
          fun i hm hi => ?_⟩
        by_cases hlast : i = l + left
        · subst hlast
          rw [hrearranged.outside _ (Or.inr (Nat.le_refl _)), exchange_right]
          exact hnonneg
        · exact hhigh i hm (by omega)
      · -- the entry stays at the low end
        rename_i hpos
        have hnonpos : compare (stab l) pivot ≤ 0 := by
          split at hc
          · omega
          · obtain ⟨rfl, -⟩ := Prod.mk.inj hc
            omega
        obtain ⟨hbounds, hrearranged, hlow, hhigh⟩ := ih (l + 1) alt' stab
        refine ⟨by omega, hrearranged.widen (Nat.le_succ l) (by omega), fun i hl hi => ?_,
          fun i hm hi => ?_⟩
        · by_cases hfirst : i = l
          · subst hfirst
            rw [hrearranged.outside _ (Or.inl (Nat.lt_succ_self _))]
            exact hnonpos
          · exact hlow i (by omega) hi
        · exact hhigh i hm (by omega)

-- A student that is less than the pivot goes to the low end.
theorem lt_partitionLoop (compare : P → P → Int) (pivot : P) {left l : Nat} {alt : Int}
    {stab : Nat → P} {i : Nat} (hlow : l ≤ i) (hhigh : i < l + left)
    (hless : compare (stab i) pivot < 0) :
    l < (partitionLoop compare pivot left l alt stab).1 := by
  have hspec := partitionLoop_spec compare pivot left l alt stab
  by_contra hle
  obtain ⟨j, hj, hj', hsame⟩ : ∃ j, l ≤ j ∧ j < l + left ∧
      (partitionLoop compare pivot left l alt stab).2 j = stab i :=
    mem_segment.mp (hspec.rearranged.perm.mem_iff.mpr (mem_segment.mpr ⟨i, hlow, hhigh, rfl⟩))
  have hnonneg := hspec.high j (by omega) hj'
  rw [hsame] at hnonneg
  omega

-- While the next tie goes to the high end, a student that is not less does so too.
theorem partitionLoop_lt (compare : P → P → Int) (pivot : P) {left l : Nat}
    {stab : Nat → P} {i : Nat} (hlow : l ≤ i) (hhigh : i < l + left)
    (hnonneg : 0 ≤ compare (stab i) pivot) :
    (partitionLoop compare pivot left l 1 stab).1 < l + left := by
  induction left generalizing l with
  | zero => omega
  | succ left ih =>
      rw [partitionLoop]
      split
      rename_i c alt' hc
      split
      · have hspec := partitionLoop_spec compare pivot left l alt' (exchange stab l (l + left))
        have hbounds := hspec.bounds
        omega
      · rename_i hpos
        split at hc
        · obtain ⟨rfl, -⟩ := Prod.mk.inj hc
          omega
        · rename_i hne
          obtain ⟨rfl, rfl⟩ := Prod.mk.inj hc
          have hother : i ≠ l := by
            rintro rfl
            omega
          have hrest := ih (l := l + 1) (by omega) (by omega)
          omega

-- Nothing comes to the low end: the first entry goes to the high end, and so do the others.
theorem partitionLoop_high {left l : Nat} {alt : Int} {stab : Nat → P}
    (hempty : (partitionLoop compare pivot (left + 1) l alt stab).1 = l) :
    ∃ alt', partitionLoop compare pivot (left + 1) l alt stab =
        partitionLoop compare pivot left l alt' (exchange stab l (l + left)) ∧
      (0 < compare (stab l) pivot ∧ alt' = alt ∨
        compare (stab l) pivot = 0 ∧ 0 < alt ∧ alt' = -alt) := by
  rw [partitionLoop] at hempty ⊢
  split at hempty
  rename_i c alt' hc
  split at hempty
  · rename_i hpos
    refine ⟨alt', if_pos hpos, ?_⟩
    split at hc
    · rename_i htie
      obtain ⟨rfl, rfl⟩ := Prod.mk.inj hc
      exact Or.inr ⟨htie, hpos, rfl⟩
    · obtain ⟨rfl, rfl⟩ := Prod.mk.inj hc
      exact Or.inl ⟨hpos, rfl⟩
  · have hbounds := (partitionLoop_spec compare pivot left (l + 1) alt' stab).bounds
    omega

-- The entries are rotated then.
theorem partitionLoop_rotates {left l : Nat} {alt : Int} {stab : Nat → P}
    (hempty : (partitionLoop compare pivot left l alt stab).1 = l) {i : Nat} (hi : i < left) :
    (partitionLoop compare pivot left l alt stab).2 (l + i) = if i + 1 = left then stab l
      else stab (l + i + 1) := by
  induction left generalizing alt stab with
  | zero => omega
  | succ left ih =>
      obtain ⟨alt', heq, -⟩ := partitionLoop_high hempty
      rw [heq] at hempty ⊢
      by_cases hlast : i = left
      · subst hlast
        have houtside :=
          (partitionLoop_spec compare pivot i l alt' (exchange stab l (l + i))).rearranged.outside
        rw [if_pos rfl, houtside _ (Or.inr (Nat.le_refl _)), exchange_right]
      · have hne : i + 1 ≠ left + 1 := by omega
        rw [ih hempty (by omega), if_neg hne]
        by_cases hnext : i + 1 = left
        · rw [if_pos hnext, exchange_left, Nat.add_assoc, hnext]
        · rw [if_neg hnext, exchange_other stab (by omega) (by omega)]

-- The next tie would go to the low end: there is none.
theorem partitionLoop_no_tie {left l : Nat} {alt : Int} {stab : Nat → P} (halt : alt < 0)
    (hempty : (partitionLoop compare pivot left l alt stab).1 = l) {i : Nat} (hlow : l ≤ i)
    (hhigh : i < l + left) :
    0 < compare (stab i) pivot := by
  induction left generalizing stab i with
  | zero => omega
  | succ left ih =>
      obtain ⟨alt', heq, ⟨hpos, rfl⟩ | ⟨-, hpos, -⟩⟩ := partitionLoop_high hempty
      · rw [heq] at hempty
        by_cases hfirst : i = l
        · rw [hfirst]
          exact hpos
        · by_cases hlast : i = l + left
          · have hmoved := ih hempty (i := l) (Nat.le_refl l) (by omega)
            rwa [exchange_left, ← hlast] at hmoved
          · have hkept := ih hempty hlow (by omega)
            rwa [exchange_other stab hfirst hlast] at hkept
      · omega

-- The next tie would go to the high end: there is one at most.
theorem partitionLoop_one_tie {left l : Nat} {alt : Int} {stab : Nat → P}
    (hempty : (partitionLoop compare pivot left l alt stab).1 = l) {i j : Nat}
    (hi : l ≤ i ∧ i < l + left) (hj : l ≤ j ∧ j < l + left) (hij : i ≠ j)
    (htie : compare (stab i) pivot = 0) : 0 < compare (stab j) pivot := by
  -- Where an entry of the range stands after the first exchange.
  have hmoved {left k : Nat} (stab : Nat → P) (hk : l ≤ k ∧ k < l + (left + 1)) (hfirst : k ≠ l) :
      ∃ k', l ≤ k' ∧ k' < l + left ∧ exchange stab l (l + left) k' = stab k ∧
        (k' = k ∨ k = l + left ∧ k' = l) := by
    by_cases hlast : k = l + left
    · subst hlast
      exact ⟨l, Nat.le_refl l, by omega, exchange_left _ _ _, Or.inr ⟨rfl, rfl⟩⟩
    · exact ⟨k, hk.1, by omega, exchange_other stab hfirst hlast, Or.inl rfl⟩
  induction left generalizing alt stab i j with
  | zero => omega
  | succ left ih =>
      obtain ⟨alt', heq, hstep⟩ := partitionLoop_high hempty
      rw [heq] at hempty
      rcases hstep with ⟨hpos, rfl⟩ | ⟨-, hpos, rfl⟩
      · have hfirst : i ≠ l := by
          rintro rfl
          omega
        by_cases hj' : j = l
        · rw [hj']
          exact hpos
        · obtain ⟨i', hli, hih, hi', hplace⟩ := hmoved stab hi hfirst
          obtain ⟨j', hlj, hjh, hj'', hplace'⟩ := hmoved stab hj hj'
          rw [← hj'']
          exact ih hempty ⟨hli, hih⟩ ⟨hlj, hjh⟩ (by omega) (by rw [hi']; exact htie)
      · -- this one is the tie
        have hrest {k : Nat} (hk : l ≤ k ∧ k < l + (left + 1)) (hne : k ≠ l) :
            0 < compare (stab k) pivot := by
          obtain ⟨k', hlk, hkh, hk', -⟩ := hmoved stab hk hne
          rw [← hk']
          exact partitionLoop_no_tie (by omega) hempty hlk hkh
        by_cases hfirst : i = l
        · exact hrest hj (by omega)
        · have hnot := hrest hi hfirst
          omega

theorem partition_spec (compare : P → P → Int) (stab : Nat → P) (low n : Nat) :
    Partitioned compare (stab ((low + (low + n)) / 2)) low n stab
      (partition compare stab low (low + n)) := by
  rw [partition, Nat.add_sub_cancel_left]
  exact partitionLoop_spec _ _ _ _ _ _

theorem sorttable_succ (compare : P → P → Int) (depth : Nat) (stab : Nat → P) (low high : Nat) :
    sorttable compare (depth + 1) stab low high =
      if low = high then some stab
      else if low + 1 = high then some (partition compare stab low high).2
      else
        (sorttable compare depth (partition compare stab low high).2 low
        (partition compare stab low high).1).bind
        fun stab' => sorttable compare depth stab' (partition compare stab low high).1 high := rfl

theorem sorttable_of_two_le (compare : P → P → Int) (depth : Nat) (stab : Nat → P) (low : Nat)
    {n : Nat} (hn : 2 ≤ n) :
    sorttable compare (depth + 1) stab low (low + n) =
      (sorttable compare depth (partition compare stab low (low + n)).2 low
        (partition compare stab low (low + n)).1).bind fun stab' =>
          sorttable compare depth stab' (partition compare stab low (low + n)).1 (low + n) := by
  have hne : low ≠ low + n := by omega
  have hne' : low + 1 ≠ low + n := by omega
  rw [sorttable_succ, if_neg hne, if_neg hne']

section

variable (hcompare : TotalCompare compare) {n : Nat}
include hcompare

-- The pivot is a tie, so something comes to the high end.
theorem partition_lt (hn : 0 < n) : (partition compare stab low (low + n)).1 < low + n := by
  rw [partition, Nat.add_sub_cancel_left]
  refine partitionLoop_lt compare _ (i := (low + (low + n)) / 2) (by omega) (by omega) ?_
  exact Int.le_of_eq (hcompare.self _).symm

-- Where nothing comes to the low end, the next pivot is greater than this one, which
-- comes to the low end then.
theorem lt_partition_again (hn : 2 ≤ n) (hempty : (partition compare stab low (low + n)).1 = low) :
    low < (partition compare (partition compare stab low (low + n)).2 low (low + n)).1 := by
  have hspec := partition_spec compare stab low n
  obtain ⟨mid, hmid⟩ : ∃ mid, mid = (low + (low + n)) / 2 := ⟨_, rfl⟩
  rw [← hmid] at hspec
  have hself : compare (stab mid) (stab mid) = 0 := hcompare.self _
  have hloop : (partitionLoop compare (stab mid) n low 1 stab).1 = low := by
    rwa [partition, Nat.add_sub_cancel_left, ← hmid] at hempty
  obtain ⟨k, hk, hne, hnext⟩ : ∃ k, (low ≤ k ∧ k < low + n) ∧ mid ≠ k ∧
      (partition compare stab low (low + n)).2 mid = stab k := by
    have hrotated := partitionLoop_rotates hloop (i := mid - low) (by omega)
    rw [partition, Nat.add_sub_cancel_left, ← hmid]
    rw [show low + (mid - low) = mid by omega] at hrotated
    by_cases hlast : mid - low + 1 = n
    · rw [if_pos hlast] at hrotated
      exact ⟨low, ⟨Nat.le_refl low, by omega⟩, by omega, hrotated⟩
    · rw [if_neg hlast] at hrotated
      exact ⟨mid + 1, ⟨by omega, by omega⟩, by omega, hrotated⟩
  have hgreater : 0 < compare (stab k) (stab mid) :=
    partitionLoop_one_tie hloop ⟨by omega, by omega⟩ hk hne hself
  obtain ⟨j, hj, hj', hold⟩ : ∃ j, low ≤ j ∧ j < low + n ∧
      (partition compare stab low (low + n)).2 j = stab mid :=
    mem_segment.mp (hspec.rearranged.perm.mem_iff.mpr
      (mem_segment.mpr ⟨mid, by omega, by omega, rfl⟩))
  rw [partition, Nat.add_sub_cancel_left, ← hmid, hnext]
  refine lt_partitionLoop compare _ hj hj' ?_
  rw [hold]
  exact (hcompare.antisymm _ _).mpr hgreater

-- The two ends of a range are sorted on their own.
theorem ascending_of_ends {front back : Nat} (hmiddle : middle = low + front)
    (hlow : ∀ i, low ≤ i → i < middle → compare (stab i) pivot ≤ 0)
    (hhigh : ∀ i, middle ≤ i → i < middle + back → 0 ≤ compare (stab i) pivot)
    (hfront : Rearranged low front stab stab₁) (hback : Rearranged middle back stab₁ stab₂)
    (hasc₁ : Ascending compare stab₁ low middle)
    (hasc₂ : Ascending compare stab₂ middle (middle + back)) :
    Ascending compare stab₂ low (middle + back) := by
  have hkept (i : Nat) (hi : i < middle) : stab₂ i = stab₁ i := hback.outside i (Or.inl hi)
  intro i j hi hij hj
  by_cases hjm : j < middle
  · rw [hkept i (by omega), hkept j hjm]
    exact hasc₁ i j hi hij hjm
  · by_cases him : middle ≤ i
    · exact hasc₂ i j him hij hj
    · -- one in each end
      have hle : compare (stab₂ i) pivot ≤ 0 := by
        rw [hkept i (by omega)]
        exact hfront.forall_of (Q := fun x => compare x pivot ≤ 0)
          (fun i hi hi' => hlow i hi (by omega)) hi (by omega)
      have hge : compare pivot (stab₂ j) ≤ 0 := by
        rw [← hcompare.nonneg]
        refine hback.forall_of (Q := fun x => 0 ≤ compare x pivot) (fun i hi hi' => ?_)
          (by omega) hj
        rw [hfront.outside i (Or.inr (by omega))]
        exact hhigh i hi hi'
      exact hcompare.trans _ _ _ hle hge

-- What sorting a range with this depth gives.
def Sorts (compare : P → P → Int) (depth low n : Nat) (stab : Nat → P) : Prop :=
  ∃ stab', sorttable compare depth stab low (low + n) = some stab' ∧ Rearranged low n stab stab' ∧
    Ascending compare stab' low (low + n)

theorem sorts_of_split {depth : Nat} (hn : 2 ≤ n)
    (hsplit : low < (partition compare stab low (low + n)).1)
    (ih : ∀ part, part < n → ∀ low stab, Sorts compare depth low part stab) :
    Sorts compare (depth + 1) low n stab := by
  have hspec := partition_spec compare stab low n
  obtain ⟨middle, hmiddle⟩ : ∃ middle, middle = (partition compare stab low (low + n)).1 := ⟨_, rfl⟩
  obtain ⟨stab₀, hstab₀⟩ : ∃ stab₀, stab₀ = (partition compare stab low (low + n)).2 := ⟨_, rfl⟩
  have hlt : middle < low + n := by
    rw [hmiddle]
    exact partition_lt hcompare (by omega)
  obtain ⟨-, hrearranged, hlow, hhigh⟩ := hspec
  rw [← hmiddle] at hsplit hlow hhigh
  rw [← hstab₀] at hrearranged hlow hhigh
  obtain ⟨front, rfl⟩ := Nat.exists_eq_add_of_le (Nat.le_of_lt hsplit)
  obtain ⟨back, hback⟩ := Nat.exists_eq_add_of_le (Nat.le_of_lt hlt)
  obtain ⟨stab₁, hsort₁, hfront, hasc₁⟩ := ih front (by omega) low stab₀
  obtain ⟨stab₂, hsort₂, hrest, hasc₂⟩ := ih back (by omega) (low + front) stab₁
  rw [← hback] at hsort₂
  refine ⟨stab₂, ?_, (hrearranged.trans (hfront.widen (Nat.le_refl low) (by omega))).trans
    (hrest.widen (by omega) (by omega)), ?_⟩
  · rw [sorttable_of_two_le compare depth stab low hn, ← hmiddle, ← hstab₀, hsort₁,
      Option.bind_some, hsort₂]
  · have hhigh' (i : Nat) (hi : low + front ≤ i) (hi' : i < low + front + back) :
        0 ≤ compare (stab₀ i) (stab ((low + (low + n)) / 2)) := hhigh i hi (by omega)
    rw [hback]
    exact ascending_of_ends hcompare rfl hlow hhigh' hfront hrest hasc₁ hasc₂

-- A range is split at the second attempt at the latest.
theorem sorttable_sorts (n depth : Nat) (hdepth : 2 * n < depth) (low : Nat) (stab : Nat → P) :
    Sorts compare depth low n stab := by
  induction n using Nat.strong_induction_on generalizing depth low stab with
  | _ n ih =>
      obtain ⟨depth, rfl⟩ : ∃ d, depth = d + 1 := ⟨depth - 1, by omega⟩
      have hspec := partition_spec compare stab low n
      by_cases hzero : n = 0
      · subst hzero
        refine ⟨stab, if_pos rfl, .refl _ _ _, fun i j hi hij hj => ?_⟩
        omega
      · have hne : low ≠ low + n := by omega
        by_cases hone : n = 1
        · subst hone
          refine ⟨_, ?_, hspec.rearranged, fun i j hi hij hj => ?_⟩
          · rw [sorttable, if_neg hne]
            exact if_pos rfl
          · omega
        · by_cases hempty : (partition compare stab low (low + n)).1 = low
          · -- the second attempt
            obtain ⟨depth, rfl⟩ : ∃ d, depth = d + 1 := ⟨depth - 1, by omega⟩
            obtain ⟨stab', hsort, hrearranged, hasc⟩ := sorts_of_split hcompare (by omega)
              (lt_partition_again hcompare (by omega) hempty)
              (fun part hpart low stab => ih part hpart depth (by omega) low stab)
            refine ⟨stab', ?_, hspec.rearranged.trans hrearranged, hasc⟩
            have hnone : sorttable compare (depth + 1)
                (partition compare stab low (low + n)).2 low low =
                some (partition compare stab low (low + n)).2 := if_pos rfl
            rw [sorttable_of_two_le compare _ stab low (by omega), hempty, hnone,
              Option.bind_some, hsort]
          · exact sorts_of_split hcompare (by omega) (by have := hspec.bounds; omega)
              (fun part hpart low stab => ih part hpart depth (by omega) low stab)

end

end CSE320.Grades
