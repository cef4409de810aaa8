import CSE320.Grades.Tables
import CSE320.Lib.Chain

namespace CSE320.Grades.Links

open Lib

-- Assignments, sections and students are pointers of the types A, S and P.
variable {A S P : Type}

structure Sectionstats (A S : Type) where
  asgt : A
  sep : S

structure Classstats (A S : Type) where
  asgt : A
  sstats : List (Sectionstats A S)

-- What the linking reads of a course. The reader ends with a fatal error at a score
-- for an assignment that has not been declared.
structure Course (A S P : Type) where
  assignments : List A
  sections : List S
  roster : S → List P
  rawscores : P → List A
  declared : ∀ sep ∈ sections, ∀ stp ∈ roster sep, ∀ asgt ∈ rawscores stp, asgt ∈ assignments

-- A score is known by its student and its place. A Classstats is known by its place in
-- the list, and a Sectionstats by its place in the list of a Classstats.
structure Linking (P : Type) where
  roster : Option P
  rp : Option P
  cnext : P → Option P
  cstats : P × Nat → Option Nat
  sstats : P × Nat → Option (Nat × Nat)

def buildstats (c : Course A S P) : List (Classstats A S) :=
  c.assignments.map fun ap => ⟨ap, c.sections.map fun sp => ⟨ap, sp⟩⟩

variable [DecidableEq P]

-- Link a student into the course roster.
def linkStudent (stp : P) (l : Linking P) : Linking P :=
  match l.rp with
  | none => { l with roster := some stp, cnext := Function.update l.cnext stp none, rp := some stp }
  | some rp =>
    { l with
      cnext := Function.update (Function.update l.cnext rp (some stp)) stp none, rp := some stp }

variable [DecidableEq A]

-- Link the scores for the assignment ap, from the place i on.
def linkScores (ap : A) (csp ssp : Nat) (stp : P) : List A → Nat → Linking P → Linking P
  | [], _, l => l
  | asgt :: rest, i, l =>
    linkScores ap csp ssp stp rest (i + 1)
      (if asgt = ap then
        { l with
          cstats := Function.update l.cstats (stp, i) (some csp)
          sstats := Function.update l.sstats (stp, i) (some (csp, ssp)) }
      else l)

def linkRoster (c : Course A S P) (ap : A) (csp ssp : Nat) : List P → Linking P → Linking P
  | [], l => l
  | stp :: rest, l =>
    linkRoster c ap csp ssp rest (linkScores ap csp ssp stp (c.rawscores stp) 0 (linkStudent stp l))

-- The statistics are followed along with the sections. There is no result where they
-- end first.
def linkSections (c : Course A S P) (ap : A) (csp : Nat) :
    List S → List (Sectionstats A S) → Nat → Linking P → Option (Linking P)
  | [], _, _, l => some l
  | _ :: _, [], _, _ => none
  | sep :: seps, _ :: ssps, ssp, l =>
    linkSections c ap csp seps ssps (ssp + 1) (linkRoster c ap csp ssp (c.roster sep) l)

def linkAssignments (c : Course A S P) :
    List A → List (Classstats A S) → Nat → Linking P → Option (Linking P)
  | [], _, _, l => some l
  | _ :: _, [], _, _ => none
  | ap :: aps, cs :: csps, csp, l => do
    let l ← linkSections c ap csp c.sections cs.sstats 0 l
    linkAssignments c aps csps (csp + 1) l

-- The links are at first what the memory holds.
def doLinks (c : Course A S P) (s : List (Classstats A S)) (l : Linking P) : Option (Linking P) :=
  linkAssignments c c.assignments s 0 { l with roster := none, rp := none }

-- The students in front are linked, and rp is the last of them.
structure LinkedTo (l : Linking P) (front : List P) : Prop where
  chain : Chain l.cnext l.roster front
  tail : l.rp = front.getLast?

-- The students in front have been reached in a pass over all of them. Before the first
-- student the list is empty, or it is what the pass before has left.
def Reached (all front : List P) (l : Linking P) : Prop :=
  LinkedTo l front ∨ front = [] ∧ LinkedTo l all

variable {c : Course A S P} {l : Linking P} {ap asgt : A} {csp ssp : Nat} {stp x y p : P}
  {all front stps : List P}

theorem linkStudent_first (h : LinkedTo l []) : LinkedTo (linkStudent y l) [y] := by
  have hrp : l.rp = none := h.tail
  simp only [linkStudent, hrp]
  exact ⟨⟨rfl, Function.update_self _ _ _⟩, rfl⟩

-- The first student of a later pass cuts the list behind it.
theorem linkStudent_again (h : LinkedTo l (y :: front)) : LinkedTo (linkStudent y l) [y] := by
  obtain ⟨rp, hrp⟩ : ∃ rp, l.rp = some rp := Option.isSome_iff_exists.mp (by rw [h.tail]; simp)
  simp only [linkStudent, hrp]
  exact ⟨⟨h.chain.1, Function.update_self _ _ _⟩, rfl⟩

theorem linkStudent_append (h : LinkedTo l (front ++ [x])) (hy : y ∉ front ++ [x]) :
    LinkedTo (linkStudent y l) (front ++ [x, y]) := by
  have hrp : l.rp = some x := by rw [h.tail, List.getLast?_concat]
  simp only [linkStudent, hrp]
  refine ⟨h.chain.append hy, ?_⟩
  rw [show front ++ [x, y] = (front ++ [x]) ++ [y] by simp, List.getLast?_concat]

theorem linkStudent_reached (hnodup : (front ++ [y]).Nodup)
    (hall : ∃ back, all = front ++ y :: back) (h : Reached all front l) :
    Reached all (front ++ [y]) (linkStudent y l) := by
  rcases h with h | ⟨rfl, h⟩
  · rcases List.eq_nil_or_concat' front with rfl | ⟨front, x, rfl⟩
    · exact Or.inl (linkStudent_first h)
    · have hy : y ∉ front ++ [x] :=
        fun hmem => (List.nodup_append.mp hnodup).2.2 y hmem y List.mem_cons_self rfl
      have hnext := linkStudent_append h hy
      rw [show front ++ [x, y] = front ++ [x] ++ [y] by simp] at hnext
      exact Or.inl hnext
  · obtain ⟨back, rfl⟩ := hall
    exact Or.inl (linkStudent_again h)

-- Linking the scores leaves the roster as it is.
theorem linkScores_links (ap : A) (csp ssp : Nat) (stp : P) (asgts : List A) (i : Nat)
    (l : Linking P) :
    (linkScores ap csp ssp stp asgts i l).cnext = l.cnext ∧
      (linkScores ap csp ssp stp asgts i l).roster = l.roster ∧
        (linkScores ap csp ssp stp asgts i l).rp = l.rp := by
  induction asgts generalizing i l with
  | nil => exact ⟨rfl, rfl, rfl⟩
  | cons asgt rest ih =>
      rw [linkScores]
      obtain ⟨hcnext, hroster, hrp⟩ := ih (i + 1) (if asgt = ap then
        { l with
          cstats := Function.update l.cstats (stp, i) (some csp)
          sstats := Function.update l.sstats (stp, i) (some (csp, ssp)) }
      else l)
      rw [hcnext, hroster, hrp]
      split <;> exact ⟨rfl, rfl, rfl⟩

theorem LinkedTo.linkScores (h : LinkedTo l front) (asgts : List A) (i : Nat) :
    LinkedTo (linkScores ap csp ssp stp asgts i l) front := by
  obtain ⟨hcnext, hroster, hrp⟩ := linkScores_links ap csp ssp stp asgts i l
  constructor
  · rw [hcnext, hroster]
    exact h.chain
  · rw [hrp]
    exact h.tail

theorem Reached.linkScores (h : Reached all front l) (asgts : List A) (i : Nat) :
    Reached all front (linkScores ap csp ssp stp asgts i l) :=
  h.imp (fun h => h.linkScores asgts i) fun ⟨hfront, h⟩ => ⟨hfront, h.linkScores asgts i⟩

theorem linkRoster_reached (c : Course A S P) (ap : A) (csp ssp : Nat) {back : List P}
    (hall : all = front ++ stps ++ back) (hnodup : all.Nodup) (h : Reached all front l) :
    Reached all (front ++ stps) (linkRoster c ap csp ssp stps l) := by
  induction stps generalizing front l with
  | nil =>
      rw [List.append_nil]
      exact h
  | cons stp rest ih =>
      rw [List.append_cons] at hall ⊢
      have hfront : (front ++ [stp]).Nodup := by
        rw [hall, List.append_assoc] at hnodup
        exact (List.nodup_append.mp hnodup).1
      refine ih hall ((linkStudent_reached hfront ⟨rest ++ back, ?_⟩ h).linkScores _ _)
      rw [hall]
      simp

theorem linkSections_reached (ap : A) (csp ssp : Nat) {seps : List S}
    {ssps : List (Sectionstats A S)} {back : List P} (hlength : ssps.length = seps.length)
    (hall : all = front ++ seps.flatMap c.roster ++ back) (hnodup : all.Nodup)
    (h : Reached all front l) : ∃ l', linkSections c ap csp seps ssps ssp l = some l' ∧
      Reached all (front ++ seps.flatMap c.roster) l' := by
  induction seps generalizing ssps ssp front l with
  | nil =>
      refine ⟨l, rfl, ?_⟩
      rw [List.flatMap_nil, List.append_nil]
      exact h
  | cons sep rest ih =>
      obtain ⟨sp, ssps, rfl⟩ : ∃ sp ssps', ssps = sp :: ssps' :=
        List.exists_cons_of_length_eq_add_one hlength
      rw [List.flatMap_cons, ← List.append_assoc] at hall ⊢
      have hsplit : all = front ++ c.roster sep ++ (rest.flatMap c.roster ++ back) := by
        rw [hall, List.append_assoc]
      have hroster := linkRoster_reached c ap csp ssp hsplit hnodup h
      exact ih (ssp + 1) (by simpa using hlength) hall hroster

-- Where a score is linked to.
def entry (l : Linking P) (p : P) (m : Nat) : Option Nat × Option (Nat × Nat) :=
  (l.cstats (p, m), l.sstats (p, m))

theorem linkScores_entry (asgts : List A) (i : Nat) (l : Linking P) (p : P) (m : Nat) :
    entry (linkScores ap csp ssp stp asgts i l) p m =
      if p = stp ∧ i ≤ m ∧ asgts[m - i]? = some ap then (some csp, some (csp, ssp))
        else entry l p m := by
  induction asgts generalizing i l with
  | nil => simp [linkScores]
  | cons asgt rest ih =>
      rw [linkScores, ih]
      have hother (h : p ≠ stp ∨ m ≠ i) : entry (if asgt = ap then
          { l with
            cstats := Function.update l.cstats (stp, i) (some csp)
            sstats := Function.update l.sstats (stp, i) (some (csp, ssp)) }
          else l) p m = entry l p m := by
        have hne : (p, m) ≠ (stp, i) := by
          rintro heq
          obtain ⟨hp, hm⟩ := Prod.mk.inj heq
          exact h.elim (fun h => h hp) fun h => h hm
        split
        · exact congrArg₂ Prod.mk (Function.update_of_ne hne _ _) (Function.update_of_ne hne _ _)
        · rfl
      by_cases hp : p = stp
      · subst hp
        rcases Nat.lt_trichotomy m i with hlt | rfl | hlt
        · rw [hother (Or.inr hlt.ne), if_neg (by omega), if_neg (by omega)]
        · by_cases hasgt : asgt = ap <;> simp [entry, hasgt]
        · obtain ⟨k, rfl⟩ : ∃ k, m = i + 1 + k := Nat.exists_eq_add_of_le hlt
          have hnext : i + 1 + k - i = k + 1 := by omega
          rw [hother (Or.inr hlt.ne'), hnext, List.getElem?_cons_succ, Nat.add_sub_cancel_left]
          by_cases hfound : rest[k]? = some ap
          · rw [if_pos ⟨rfl, by omega, hfound⟩, if_pos ⟨rfl, by omega, hfound⟩]
          · rw [if_neg fun h => hfound h.2.2, if_neg fun h => hfound h.2.2]
      · rw [hother (Or.inl hp), if_neg fun h => hp h.1, if_neg fun h => hp h.1]

theorem linkStudent_entry (stp : P) (l : Linking P) (p : P) (m : Nat) :
    entry (linkStudent stp l) p m = entry l p m := by
  rw [linkStudent]
  split <;> rfl

theorem linkRoster_entry (stps : List P) (l : Linking P) (p : P) (m : Nat) :
    entry (linkRoster c ap csp ssp stps l) p m =
      if p ∈ stps ∧ (c.rawscores p)[m]? = some ap then (some csp, some (csp, ssp))
        else entry l p m := by
  induction stps generalizing l with
  | nil => simp [linkRoster]
  | cons stp rest ih =>
      rw [linkRoster, ih, linkScores_entry, linkStudent_entry]
      by_cases hfor : (c.rawscores p)[m]? = some ap
      · by_cases hp : p = stp
        · subst hp
          simp [hfor]
        · simp [hfor, hp]
      · have hnot : ¬(p = stp ∧ 0 ≤ m ∧ (c.rawscores stp)[m - 0]? = some ap) := by
          rintro ⟨rfl, -, h⟩
          exact hfor h
        simp only [if_neg hnot, hfor, and_false, if_false]

-- A student is linked to the section whose roster it is in.
theorem linkSections_entry {seps : List S} {ssps : List (Sectionstats A S)} {l' : Linking P}
    (hnodup : (seps.flatMap c.roster).Nodup) (h : linkSections c ap csp seps ssps ssp l = some l')
    (p : P) (m : Nat) :
    (¬(p ∈ seps.flatMap c.roster ∧ (c.rawscores p)[m]? = some ap) → entry l' p m = entry l p m) ∧
      ∀ j sep, seps[j]? = some sep → p ∈ c.roster sep → (c.rawscores p)[m]? = some ap →
        entry l' p m = (some csp, some (csp, ssp + j)) := by
  induction seps generalizing ssps ssp l with
  | nil =>
      obtain rfl := Option.some.inj h
      exact ⟨fun _ => rfl, fun j sep hsep => by cases hsep⟩
  | cons first rest ih =>
      cases ssps with
      | nil => cases h
      | cons sp ssps =>
          rw [List.flatMap_cons, List.nodup_append] at hnodup
          obtain ⟨-, hrest, hdisjoint⟩ := hnodup
          obtain ⟨hkept, hlinked⟩ := ih hrest h
          rw [linkRoster_entry] at hkept
          refine ⟨fun hnot => ?_, fun j sep hsep hp hfor => ?_⟩
          · rw [List.flatMap_cons, List.mem_append] at hnot
            rw [hkept fun h => hnot ⟨Or.inr h.1, h.2⟩, if_neg fun h => hnot ⟨Or.inl h.1, h.2⟩]
          · cases j with
            | zero =>
                obtain rfl : first = sep := Option.some.inj hsep
                have hlater : p ∉ rest.flatMap c.roster := fun hmem => hdisjoint p hp p hmem rfl
                rw [hkept fun h => hlater h.1, if_pos ⟨hp, hfor⟩]
                rfl
            | succ j =>
                rw [hlinked j sep hsep hp hfor]
                rw [Nat.add_assoc, Nat.add_comm 1 j]

-- One pass for each assignment.
theorem linkAssignments_spec (hnodup : (c.sections.flatMap c.roster).Nodup)
    (aps : List A) (csp : Nat) (hl : LinkedTo l [] ∨ LinkedTo l (c.sections.flatMap c.roster)) :
    ∃ l', linkAssignments c aps (aps.map fun ap => ⟨ap, c.sections.map fun sp => ⟨ap, sp⟩⟩) csp l =
      some l' ∧
      (aps ≠ [] ∨ LinkedTo l (c.sections.flatMap c.roster) →
        LinkedTo l' (c.sections.flatMap c.roster)) ∧
      ∀ j sep p m asgt, c.sections[j]? = some sep → p ∈ c.roster sep →
        (c.rawscores p)[m]? = some asgt →
        (asgt ∉ aps → entry l' p m = entry l p m) ∧
        (asgt ∈ aps → ∃ k, aps[k]? = some asgt ∧
          entry l' p m = (some (csp + k), some (csp + k, j))) := by
  induction aps generalizing csp l with
  | nil => 
      refine ⟨l, rfl, fun h => h.resolve_left (fun h => h rfl),
        fun j sep p m asgt _ _ _ => ⟨fun _ => rfl, fun h => ?_⟩⟩
      cases h
  | cons ap rest ih =>
      have hall : c.sections.flatMap c.roster = [] ++ c.sections.flatMap c.roster ++ [] := by simp
      have hlength : (c.sections.map fun sp => (⟨ap, sp⟩ : Sectionstats A S)).length =
          c.sections.length :=
        List.length_map _
      obtain ⟨l₁, hpass, hreached⟩ :=
        linkSections_reached ap csp 0 hlength hall hnodup (hl.imp id fun h => ⟨rfl, h⟩)
      have hlinked : LinkedTo l₁ (c.sections.flatMap c.roster) := by
        rw [List.nil_append] at hreached
        exact hreached.elim id And.right
      obtain ⟨l', hrest, hlast, hentries⟩ := ih (csp + 1) (Or.inr hlinked)
      refine ⟨l', ?_, fun _ => hlast (Or.inr hlinked), fun j sep p m asgt hsep hp hfor => ?_⟩
      · rw [List.map_cons, linkAssignments, hpass]
        exact hrest
      · obtain ⟨hkept, hnow⟩ := linkSections_entry hnodup hpass p m
        obtain ⟨hkept', hlater⟩ := hentries j sep p m asgt hsep hp hfor
        refine ⟨fun hnot => ?_, fun hmem => ?_⟩
        · obtain ⟨hne, hnot⟩ := List.ne_and_not_mem_of_not_mem_cons hnot
          rw [hkept' hnot, hkept fun h => hne (Option.some.inj (hfor.symm.trans h.2))]
        · by_cases hin : asgt ∈ rest
          · obtain ⟨k, hk, hentry⟩ := hlater hin
            refine ⟨k + 1, hk, ?_⟩
            rw [hentry, Nat.add_assoc, Nat.add_comm 1 k]
          · obtain rfl : asgt = ap := (List.mem_cons.mp hmem).resolve_right hin
            refine ⟨0, rfl, ?_⟩
            rw [hkept' hin, hnow j sep hsep hp hfor, Nat.zero_add]
            rfl

theorem doLinks_spec (hsome : c.assignments ≠ []) (hdisjoint : (c.sections.flatMap c.roster).Nodup)
    (l : Linking P) :
    ∃ l', doLinks c (buildstats c) l = some l' ∧
      Chain l'.cnext l'.roster (c.sections.flatMap c.roster) ∧
      ∀ j sep stp m asgt, c.sections[j]? = some sep → stp ∈ c.roster sep →
        (c.rawscores stp)[m]? = some asgt →
        ∃ k, c.assignments[k]? = some asgt ∧ l'.cstats (stp, m) = some k ∧
          l'.sstats (stp, m) = some (k, j) := by
  have hinitial : LinkedTo { l with roster := none, rp := none } [] := ⟨rfl, rfl⟩
  obtain ⟨l', hlinks, hlinked, hentries⟩ :=
    linkAssignments_spec hdisjoint c.assignments 0 (Or.inl hinitial)
  refine ⟨l', hlinks, (hlinked (Or.inl hsome)).chain, fun j sep stp m asgt hsep hstp hasgt => ?_⟩
  have hdeclared : asgt ∈ c.assignments :=
    c.declared sep (List.mem_of_getElem? hsep) stp hstp asgt (List.mem_of_getElem? hasgt)
  obtain ⟨k, hk, hentry⟩ := (hentries j sep stp m asgt hsep hstp hasgt).2 hdeclared
  rw [Nat.zero_add] at hentry
  obtain ⟨hcstats, hsstats⟩ := Prod.mk.inj hentry
  exact ⟨k, hk, hcstats, hsstats⟩

-- The list is acyclic after the last pass, and the scores are where they belong.
theorem doLinks_links (c : Course A S P) (hsome : c.assignments ≠ [])
    (hdisjoint : (c.sections.flatMap c.roster).Nodup) (l : Linking P) :
    ∃ l', doLinks c (buildstats c) l = some l' ∧
      Chain l'.cnext l'.roster (c.sections.flatMap c.roster) ∧
      ∀ j sep stp m asgt, c.sections[j]? = some sep → stp ∈ c.roster sep →
        (c.rawscores stp)[m]? = some asgt →
        ∃ k cs ss, l'.cstats (stp, m) = some k ∧ (buildstats c)[k]? = some cs ∧ cs.asgt = asgt ∧
          l'.sstats (stp, m) = some (k, j) ∧ cs.sstats[j]? = some ss ∧ ss.asgt = asgt ∧
            ss.sep = sep := by
  obtain ⟨l', hlinks, hchain, hscores⟩ := doLinks_spec hsome hdisjoint l
  refine ⟨l', hlinks, hchain, fun j sep stp m asgt hsep hstp hasgt => ?_⟩
  obtain ⟨k, hk, hcstats, hsstats⟩ := hscores j sep stp m asgt hsep hstp hasgt
  refine ⟨k, ⟨asgt, c.sections.map fun sp => ⟨asgt, sp⟩⟩, ⟨asgt, sep⟩, hcstats, ?_, rfl, hsstats,
    ?_, rfl, rfl⟩
  · rw [buildstats, List.getElem?_map, hk]
    rfl
  · rw [List.getElem?_map, hsep]
    rfl

-- Two assignments, a section with one student and a section with two.
def smallCourse : Course Bool Bool Nat where
  assignments := [false, true]
  sections := [false, true]
  roster sep := if sep then [2, 3] else [1]
  rawscores stp := if stp = 1 then [true, false] else [true]
  declared := by decide

theorem doLinks_links_small :
    ∃ l', doLinks smallCourse (buildstats smallCourse) ⟨some 3, some 1, some, fun _ => none,
      fun _ => none⟩ = some l' ∧
      Chain l'.cnext l'.roster [1, 2, 3] ∧
      ∃ k cs ss, l'.cstats (1, 0) = some k ∧ (buildstats smallCourse)[k]? = some cs ∧
        cs.asgt = true ∧
        l'.sstats (1, 0) = some (k, 0) ∧ cs.sstats[0]? = some ss ∧ ss.asgt = true ∧
          ss.sep = false := by
  obtain ⟨l', hlinks, hchain, hscores⟩ := doLinks_links smallCourse (by decide) (by decide)
    ⟨some 3, some 1, some, fun _ => none, fun _ => none⟩
  exact ⟨l', hlinks, hchain, hscores 0 false 1 0 true rfl (by decide) rfl⟩

section

variable {n : Nat}

-- The students by their places in the sections of a course.
def rosterAt (c : Grades.Course ℚ n) (i : Nat) : List (Student ℚ n) :=
  (c.sections[i]?).elim [] Section.roster

def studentAt (c : Grades.Course ℚ n) (p : Nat × Nat) : Option (Student ℚ n) :=
  (rosterAt c p.1)[p.2]?

def linkable (c : Grades.Course ℚ n) : Course (Fin n) Nat (Nat × Nat) where
  assignments := List.finRange n
  sections := List.range c.sections.length
  roster i := (List.range (rosterAt c i).length).map (i, ·)
  rawscores p := (studentAt c p).elim [] fun st => st.rawscores.map Score.asgt
  declared := fun _ _ _ _ a _ => List.mem_finRange a

theorem map_range_getElem? {α : Type} (xs : List α) :
    (List.range xs.length).map (xs[·]?) = xs.map some := by
  refine List.ext_getElem (by simp) fun i hi hi' => ?_
  simp only [List.length_map] at hi'
  simp [List.getElem?_eq_getElem hi']

theorem rosterFrom_eq (k : Nat) (sections : List (Section ℚ n)) : rosterFrom k sections =
    (List.range sections.length).flatMap fun i =>
      ((sections[i]?).elim [] Section.roster).map (k + i, ·) := by
  induction sections generalizing k with
  | nil => rfl
  | cons s rest ih =>
      rw [rosterFrom, ih, List.length_cons, List.range_succ_eq_map, List.flatMap_cons,
        List.flatMap_map]
      congr 1
      refine List.flatMap_congr fun i _ => ?_
      rw [List.getElem?_cons_succ, Nat.add_assoc, Nat.add_comm 1 i]

-- The pointers that the linking leaves are the places that the tables are kept by.
theorem doLinks_refines (c : Grades.Course ℚ n) (hn : n ≠ 0) (l : Linking (Nat × Nat)) :
    ∃ l' places, doLinks (linkable c) (buildstats (linkable c)) l = some l' ∧
      Chain l'.cnext l'.roster places ∧
      (places.map fun p => (p.1, studentAt c p)) =
        ((Grades.doLinks c).map fun e => (e.1, some e.2)) ∧
      ∀ p ∈ places, ∀ st m sc, studentAt c p = some st → st.rawscores[m]? = some sc →
        l'.cstats (p, m) = some sc.asgt ∧ l'.sstats (p, m) = some (sc.asgt, p.1) := by
  have hdisjoint : ((linkable c).sections.flatMap (linkable c).roster).Nodup := by
    refine List.nodup_flatMap.mpr ⟨fun i _ => List.nodup_range.map fun j j' h => (Prod.mk.inj h).2,
      ?_⟩
    refine List.nodup_range.imp fun {i i'} hne => ?_
    intro p hp hp'
    obtain ⟨j, -, rfl⟩ := List.mem_map.mp hp
    obtain ⟨j', -, heq⟩ := List.mem_map.mp hp'
    exact hne (Prod.mk.inj heq).1.symm
  have hsome : (linkable c).assignments ≠ [] := fun h => hn (List.finRange_eq_nil_iff.mp h)
  obtain ⟨l', hlinks, hchain, hscores⟩ := doLinks_spec hsome hdisjoint l
  refine ⟨l', _, hlinks, hchain, ?_, fun p hp st m sc hst hsc => ?_⟩
  · rw [doLinks_eq c hn, rosterFrom_eq, List.map_flatMap, List.map_flatMap]
    refine List.flatMap_congr fun i _ => ?_
    rw [linkable, List.map_map, List.map_map, Nat.zero_add]
    have h := congrArg (List.map fun st => (i, st)) (map_range_getElem? (rosterAt c i))
    simpa [List.map_map, Function.comp_def, studentAt, rosterAt] using h
  · obtain ⟨i, hi, hpi⟩ := List.mem_flatMap.mp hp
    obtain ⟨j, hj, rfl⟩ := List.mem_map.mp hpi
    have hi' : (linkable c).sections[i]? = some i := by
      rw [linkable, List.getElem?_range (List.mem_range.mp hi)]
    have hasgt : ((linkable c).rawscores (i, j))[m]? = some sc.asgt := by
      simp only [linkable, hst, Option.elim_some, List.getElem?_map, hsc, Option.map_some]
    obtain ⟨k, hk, hcstats, hsstats⟩ := hscores i i (i, j) m sc.asgt hi' hpi hasgt
    obtain ⟨hlt, hget⟩ := List.getElem?_eq_some_iff.mp hk
    obtain rfl : k = sc.asgt := by
      rw [← hget]
      simp [linkable]
    exact ⟨hcstats, hsstats⟩

end

end CSE320.Grades.Links
