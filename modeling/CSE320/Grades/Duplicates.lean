import CSE320.Grades.Roster
import CSE320.Lib.Format
import Mathlib.Algebra.Order.BigOperators.Group.List
import Mathlib.Data.List.Dedup

namespace CSE320.Grades

open Lib

variable {P : Type}

-- The class roster is linked by the field cnext and a section roster by next.
structure Rosters (P : Type) where
  roster : Option P
  cnext : P → Option P
  sections : List (Option P)
  next : P → Option P

section

variable [DecidableEq P] (compare : P → P → Int) (bound : Nat) (tables : Nat → Nat → P)

-- The loop of sortrosters over the sections. Each call has a table from malloc.
def sortSections : Nat → List (Option P) → (P → Option P) → Option
    (List (Option P) × (P → Option P))
  | _, [], next => some ([], next)
  | call, s :: rest, next => do
    let (s, next) ← sortroster compare bound (tables call) s next
    let (rest, next) ← sortSections (call + 1) rest next
    return (s :: rest, next)

def sortrosters (r : Rosters P) : Option (Rosters P) := do
  let (roster, cnext) ← sortroster compare bound (tables 0) r.roster r.cnext
  let (sections, next) ← sortSections compare bound tables 1 r.sections r.next
  return ⟨roster, cnext, sections, next⟩

end

section

variable {n : Nat} (student : P → Student ℚ n)

def duplicateWarning (s : Student ℚ n) : Text :=
  ascii "Duplicate entry for student: " ++ s.surname ++ ascii ", " ++ s.name ++ ascii "."

-- The loop of checkfordups, with a bound on its rounds. It gives the warnings.
def checkfordups (cnext : P → Option P) : Nat → Option P → Option (List Text)
  | 0, _ => none
  | _ + 1, none => some []
  | rounds + 1, some sp =>
    match cnext sp with
    | none => some []
    | some other => do
      let rest ← checkfordups cnext rounds (some other)
      return if comparename (student sp) (student other) = 0 then
        duplicateWarning (student sp) :: rest else rest

-- The name under which a student is entered.
def entryName (p : P) : Text × Text := ((student p).surname, (student p).name)

end

-- The comparison of students by name, in terms of the names.
def compareEntry (k l : Text × Text) : Int :=
  if strcmp k.1 l.1 ≠ 0 then strcmp k.1 l.1 else strcmp k.2 l.2

-- The rosters of a course: lists that end, and no student is in two sections.
structure Linked (r : Rosters P) (xs : List P) (parts : List (List P)) : Prop where
  roster : Chain r.cnext r.roster xs
  sections : List.Forall₂ (Chain r.next) r.sections parts
  disjoint : parts.Pairwise List.Disjoint

-- A list of the same students in order.
structure SortedOf (compare : P → P → Int) (ys xs : List P) : Prop where
  perm : ys.Perm xs
  ordered : ys.Pairwise fun p q => compare p q ≤ 0

-- The entries that are the same as the next one.
def repeats {α : Type} [DecidableEq α] : List α → Nat
  | x :: y :: rest => (if x = y then 1 else 0) + repeats (y :: rest)
  | _ => 0

-- In order, the same entries stand together, so each one but the last repeats.
theorem repeats_dedup {α : Type} [DecidableEq α] {r : α → α → Prop}
    (hr : ∀ a b, r a b → r b a → a = b) {xs : List α} (h : xs.Pairwise r) :
    repeats xs + xs.dedup.length = xs.length := by
  induction xs with
  | nil => rfl
  | cons x rest ih =>
      cases rest with
      | nil => rfl
      | cons y rest =>
          obtain ⟨hx, hrest⟩ := List.pairwise_cons.mp h
          have hcount := ih hrest
          by_cases hxy : x = y
          · rw [repeats, if_pos hxy, List.dedup_cons_of_mem (by simp [hxy]), List.length_cons]
            omega
          · have hnot : x ∉ y :: rest := fun hmem => by
              rcases List.mem_cons.mp hmem with rfl | hmem
              · exact hxy rfl
              · have hyx := (List.pairwise_cons.mp hrest).1 x hmem
                exact hxy (hr x y (hx y List.mem_cons_self) hyx)
            rw [repeats, if_neg hxy, List.dedup_cons_of_notMem hnot, List.length_cons,
              List.length_cons]
            omega

theorem strcmp_eq_zero {s t : Text} : strcmp s t = 0 ↔ s = t := by
  induction s generalizing t with
  | nil => cases t <;> simp [strcmp]
  | cons c s ih =>
      cases t with
      | nil => simp [strcmp]
      | cons d t =>
          by_cases heq : c = d
          · simp [strcmp, heq, ih]
          · simp only [strcmp, List.cons.injEq, heq, false_and, iff_false]
            by_cases hlt : c.toNat < d.toNat <;> simp [hlt]

theorem compareEntry_total : TotalCompare compareEntry :=
  (strcmp_total.comap Prod.fst).lex (strcmp_total.comap Prod.snd)

theorem compareEntry_eq_zero {k l : Text × Text} : compareEntry k l = 0 ↔ k = l := by
  rw [compareEntry, Prod.ext_iff]
  by_cases hsurname : k.1 = l.1
  · simp [hsurname, strcmp_eq_zero]
  · have hne : strcmp k.1 l.1 ≠ 0 := fun h => hsurname (strcmp_eq_zero.mp h)
    simp [hne, hsurname]

theorem compareEntry_antisymm (k l : Text × Text) (hkl : compareEntry k l ≤ 0)
    (hlk : compareEntry l k ≤ 0) : k = l := by
  have hnonneg := (compareEntry_total.nonneg k l).mpr hlk
  apply compareEntry_eq_zero.mp
  omega

section

variable {n : Nat} (student : P → Student ℚ n)

theorem comparename_eq (p q : P) :
    comparename (student p) (student q) =
      compareEntry (entryName student p) (entryName student q) := rfl

-- Each warning is about an entry with the name of the next one.
theorem checkfordups_chain {cnext : P → Option P} {s : Option P} {xs : List P}
    (hxs : Chain cnext s xs) {bound : Nat} (hbound : xs.length < bound) :
    ∃ warnings, checkfordups student cnext bound s = some warnings ∧
      warnings.length = repeats (xs.map (entryName student)) := by
  induction xs generalizing s bound with
  | nil =>
      obtain rfl : s = none := hxs
      obtain ⟨bound, rfl⟩ : ∃ b, bound = b + 1 := ⟨bound - 1, by simp at hbound; omega⟩
      exact ⟨[], rfl, rfl⟩
  | cons x xs ih =>
      obtain ⟨rfl, hrest⟩ := hxs
      obtain ⟨bound, rfl⟩ : ∃ b, bound = b + 1 := ⟨bound - 1, by omega⟩
      cases xs with
      | nil =>
          have hlast : cnext x = none := hrest
          exact ⟨[], by simp [checkfordups, hlast], rfl⟩
      | cons y xs =>
          obtain ⟨warnings, hwarnings, hlength⟩ := ih hrest (by simpa using hbound)
          have hnext : cnext x = some y := hrest.1
          rw [hnext] at hwarnings
          refine ⟨_, by
            simp only [checkfordups, hnext, hwarnings, Option.bind_eq_bind, Option.bind_some]
            rfl, ?_⟩
          simp only [List.map_cons, repeats, comparename_eq, compareEntry_eq_zero] at hlength ⊢
          split
          · rw [List.length_cons, hlength, Nat.add_comm]
          · rw [hlength, Nat.zero_add]

end

section

variable [DecidableEq P] {compare : P → P → Int}

omit [DecidableEq P] in
theorem chains_congr {starts : List (Option P)} {parts : List (List P)} {next next' : P → Option P}
    (h : List.Forall₂ (Chain next) starts parts)
    (hsame : ∀ xs ∈ parts, ∀ x ∈ xs, next' x = next x) :
    List.Forall₂ (Chain next') starts parts := by
  induction h with
  | nil => exact .nil
  | cons hxs _ ih =>
      refine .cons (hxs.congr (hsame _ List.mem_cons_self)) (ih fun xs hmem => ?_)
      exact hsame xs (List.mem_cons_of_mem _ hmem)

-- The sections are sorted one after another, and a later one leaves the links of an
-- earlier one alone.
theorem sortSections_spec (hcompare : TotalCompare compare) (tables : Nat → Nat → P)
    {starts : List (Option P)} {parts : List (List P)} {next : P → Option P}
    (hparts : List.Forall₂ (Chain next) starts parts) (hdisjoint : parts.Pairwise List.Disjoint)
    (call bound : Nat) (hbound : ∀ xs ∈ parts, 2 * xs.length < bound) :
    ∃ starts' next' parts', sortSections compare bound tables call starts next =
      some (starts', next') ∧
      List.Forall₂ (Chain next') starts' parts' ∧ List.Forall₂ (SortedOf compare) parts' parts ∧
      ∀ x, (∀ xs ∈ parts, x ∉ xs) → next' x = next x := by
  induction parts generalizing starts next call with
  | nil =>
      cases hparts
      exact ⟨[], next, [], rfl, .nil, .nil, fun _ _ => rfl⟩
  | cons xs parts ih =>
      obtain ⟨s, starts, hxs, hrest, rfl⟩ := List.forall₂_cons_right_iff.mp hparts
      obtain ⟨hfirst, hlater⟩ := List.pairwise_cons.mp hdisjoint
      obtain ⟨s', next₁, ys, hsort, hys, hperm, hordered, hkept⟩ :=
        sortroster_spec hcompare hxs (tables call) bound (hbound xs List.mem_cons_self)
      have hrest₁ : List.Forall₂ (Chain next₁) starts parts := by
        apply chains_congr hrest
        intro zs hzs x hx
        exact hkept x fun hmem => hfirst zs hzs hmem hx
      obtain ⟨starts', next', parts', hsections, hchains, hsorted, hkept'⟩ :=
        ih hrest₁ hlater (call + 1) fun zs hzs => hbound zs (List.mem_cons_of_mem xs hzs)
      refine ⟨s' :: starts', next', ys :: parts', ?_, .cons ?_ hchains,
        .cons ⟨hperm, hordered⟩ hsorted, fun x hx => ?_⟩
      · rw [sortSections, hsort, Option.bind_eq_bind, Option.bind_some]
        simp only [hsections]
        rfl
      · apply hys.congr
        intro x hx
        exact hkept' x fun zs hzs hmem => hfirst zs hzs (hperm.mem_iff.mp hx) hmem
      · rw [hkept' x fun zs hzs => hx zs (List.mem_cons_of_mem xs hzs)]
        exact hkept x (hx xs List.mem_cons_self)

-- The students stay where they are, and each roster is in order.
theorem sortrosters_spec (hcompare : TotalCompare compare) (tables : Nat → Nat → P) {r : Rosters P}
    {xs : List P} {parts : List (List P)} (h : Linked r xs parts) (bound : Nat)
    (hroster : 2 * xs.length < bound) (hsections : ∀ part ∈ parts, 2 * part.length < bound) :
    ∃ r' ys parts', sortrosters compare bound tables r = some r' ∧ Chain r'.cnext r'.roster ys ∧
      SortedOf compare ys xs ∧ List.Forall₂ (Chain r'.next) r'.sections parts' ∧
      List.Forall₂ (SortedOf compare) parts' parts := by
  obtain ⟨s, cnext, ys, hsort, hys, hperm, hordered, -⟩ :=
    sortroster_spec hcompare h.roster (tables 0) bound hroster
  obtain ⟨starts, next, parts', hsorted, hchains, hparts, -⟩ :=
    sortSections_spec hcompare tables h.sections h.disjoint 1 bound hsections
  refine ⟨⟨s, cnext, starts, next⟩, ys, parts', ?_, hys, ⟨hperm, hordered⟩, hchains, hparts⟩
  rw [sortrosters, hsort, Option.bind_eq_bind, Option.bind_some]
  simp only [hsorted]
  rfl

-- There is a warning for each student but the last one of each name.
theorem checkfordups_counts {n : Nat} (student : P → Student ℚ n) (r : Rosters P) (xs : List P)
    (parts : List (List P)) (h : Linked r xs parts) (tables : Nat → Nat → P) :
    ∃ N, ∀ bound, N ≤ bound → ∃ r' warnings,
      sortrosters (fun p q => comparename (student p) (student q)) bound tables r = some r' ∧
      checkfordups student r'.cnext bound r'.roster = some warnings ∧
      warnings.length + (xs.map (entryName student)).dedup.length = xs.length := by
  refine ⟨2 * xs.length + 2 * (parts.map List.length).sum + 1, fun bound hbound => ?_⟩
  have hsections (part : List P) (hpart : part ∈ parts) : 2 * part.length < bound := by
    have hle := List.single_le_sum (fun _ _ => Nat.zero_le _) _
      (List.mem_map_of_mem (f := List.length) hpart)
    omega
  obtain ⟨r', ys, -, hsort, hys, ⟨hperm, hordered⟩, -, -⟩ :=
    sortrosters_spec (comparename_total student) tables h bound (by omega) hsections
  have hlength := hperm.length_eq
  have henough : ys.length < bound := by omega
  obtain ⟨warnings, hwarnings, hcount⟩ := checkfordups_chain student hys henough
  refine ⟨r', warnings, hsort, hwarnings, ?_⟩
  have hnames : (ys.map (entryName student)).Pairwise fun k l => compareEntry k l ≤ 0 :=
    List.pairwise_map.mpr hordered
  rw [hcount, ← (hperm.map (entryName student)).dedup.length_eq,
    repeats_dedup compareEntry_antisymm hnames, List.length_map, hlength]

end

-- Two students of one name among three, and one of the two is in another section.
def threeStudents (p : Fin 3) : Student ℚ 0 := ⟨[], if p = 1 then [97] else [98], [], [], [], 0⟩

def threeRosters : Rosters (Fin 3) where
  roster := some 0
  cnext p := if p = 2 then none else some (p + 1)
  sections := [some 0, some 2]
  next p := if p = 0 then some 1 else none

theorem checkfordups_counts_three :
    ∃ N, ∀ bound, N ≤ bound → ∃ r' warnings,
      sortrosters (fun p q => comparename (threeStudents p) (threeStudents q)) bound (fun _ _ => 0)
        threeRosters =
        some r' ∧
      checkfordups threeStudents r'.cnext bound r'.roster = some warnings ∧
      warnings.length + ([0, 1, 2].map (entryName threeStudents)).dedup.length = 3 := by
  have hlinked : Linked threeRosters [0, 1, 2] [[0, 1], [2]] :=
    ⟨⟨rfl, rfl, rfl, rfl⟩,
      .cons ⟨rfl, rfl, rfl⟩ (.cons ⟨rfl, rfl⟩ .nil), by simp [List.disjoint_left]⟩
  exact checkfordups_counts threeStudents threeRosters [0, 1, 2] [[0, 1], [2]] hlinked fun _ _ => 0

end CSE320.Grades
