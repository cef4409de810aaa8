import CSE320.Grades.Stats
import Mathlib.Data.List.Perm.Basic
import Mathlib.Tactic.Linarith

namespace CSE320.Grades

variable {F : Type} {n : Nat} (sqrt : ℚ → ℚ)

def fillQuantiles (p : Sample F) : Sample F := { p with freqs := quantiles 0 p.freqs }

def sumUp (g : ℚ) (p : Sample ℚ) : Sample ℚ := addScore g { p with valid := p.valid + 1 }

-- The statistics of a list of grades.
def sampleOf (grades : List ℚ) : Sample ℚ :=
  moments sqrt (grades.foldl (fun p g => sumUp g p)
    (fillQuantiles (grades.foldl (fun p g => tally g p) newstats)))

-- A sample without its bounds, which no grade depends on.
def core [Zero F] (p : Sample F) : Sample F := { p with min := 0, max := 0 }

-- The grades that count for an assignment.
def gradesOf (a : Fin n) (scores : List (Score F n)) : List F :=
  (scores.filter fun sc => counted sc && decide (sc.asgt = a)).map Score.grade

def scoresOf (s : Section F n) : List (Score F n) := s.roster.flatMap Student.rawscores

-- The scores of a roster that count, with the place of their section.
def entries (roster : List (Nat × Student F n)) : List (Nat × Score F n) :=
  roster.flatMap fun (i, st) => (st.rawscores.filter (counted ·)).map (i, ·)

-- What a step does to the tables, up to the bounds.
structure Follows [Zero F] (step : Stats F n → Nat → Score F n → Stats F n)
    (f : F → Sample F → Sample F) : Prop where
  bounds : ∀ g p, core (f g p) = f g (core p)
  cstats : ∀ s i sc a, core ((step s i sc).cstats a) =
    if sc.asgt = a then core (f sc.grade (s.cstats a)) else core (s.cstats a)
  sstats : ∀ s i sc a j, core ((step s i sc).sstats a j) =
    if sc.asgt = a ∧ i = j then core (f sc.grade (s.sstats a j)) else core (s.sstats a j)

-- Entries are counted in any order.
theorem countScore_comm (g h : ℚ) (freqs : List (Freqs ℚ)) :
    countScore g (countScore h freqs) = countScore h (countScore g freqs) := by
  induction freqs with
  | nil =>
      rcases lt_trichotomy g h with hlt | rfl | hlt
      · simp [countScore, hlt, hlt.ne, hlt.ne', hlt.le]
      · rfl
      · simp [countScore, hlt, hlt.ne, hlt.ne', hlt.le]
  | cons f rest ih =>
      simp only [countScore]
      grind [countScore]

theorem tally_comm (g h : ℚ) (p : Sample ℚ) : tally g (tally h p) = tally h (tally g p) := by
  simp [tally, countScore_comm g h]

theorem sumUp_comm (g h : ℚ) (p : Sample ℚ) : sumUp g (sumUp h p) = sumUp h (sumUp g p) := by
  simp only [sumUp, addScore, Sample.mk.injEq, true_and, and_true]
  exact ⟨add_right_comm _ _ _, add_right_comm _ _ _⟩

-- The order of the grades does not matter.
theorem sampleOf_perm {grades grades' : List ℚ} (h : grades.Perm grades') :
    sampleOf sqrt grades = sampleOf sqrt grades' := by
  have htally := h.foldl_eq' (f := fun p g => tally g p)
    (fun x _ y _ z => tally_comm y x z) newstats
  have hsum := h.foldl_eq' (f := fun p g => sumUp g p) (fun x _ y _ z => sumUp_comm y x z)
  rw [sampleOf, sampleOf, htally, hsum]

theorem gradesOf_perm (a : Fin n) {scores scores' : List (Score F n)} (h : scores.Perm scores') :
    (gradesOf a scores).Perm (gradesOf a scores') := (h.filter _).map _

theorem forScores_eq (roster : List (Nat × Student F n))
    (step : Stats F n → Nat → Score F n → Stats F n) (s : Stats F n) :
    forScores roster step s = (entries roster).foldl (fun s e => step s e.1 e.2) s := by
  rw [forScores, entries, List.foldl_flatMap]
  congr 1
  funext s e
  rw [List.foldl_map, List.foldl_filter]

variable {sqrt}

-- A table holds the grades of its own entries.
theorem Follows.fold_cstats [Zero F] {step : Stats F n → Nat → Score F n → Stats F n}
    {f : F → Sample F → Sample F} (h : Follows step f) (list : List (Nat × Score F n))
    (s : Stats F n) (a : Fin n) :
    core ((list.foldl (fun s e => step s e.1 e.2) s).cstats a) =
      (((list.filter fun e => e.2.asgt = a).map fun e => e.2.grade).foldl (fun p g => f g p)
        (core (s.cstats a))) := by
  induction list generalizing s with
  | nil => rfl
  | cons e rest ih =>
      rw [List.foldl_cons, ih, h.cstats]
      by_cases ha : e.2.asgt = a
      · rw [if_pos ha, List.filter_cons_of_pos (by simpa using ha), List.map_cons,
          List.foldl_cons, h.bounds]
      · rw [if_neg ha, List.filter_cons_of_neg (by simpa using ha)]

theorem Follows.fold_sstats [Zero F] {step : Stats F n → Nat → Score F n → Stats F n}
    {f : F → Sample F → Sample F} (h : Follows step f) (list : List (Nat × Score F n))
    (s : Stats F n) (a : Fin n) (j : Nat) :
    core ((list.foldl (fun s e => step s e.1 e.2) s).sstats a j) =
      (((list.filter fun e => e.2.asgt = a ∧ e.1 = j).map fun e => e.2.grade).foldl
        (fun p g => f g p)
        (core (s.sstats a j))) := by
  induction list generalizing s with
  | nil => rfl
  | cons e rest ih =>
      rw [List.foldl_cons, ih, h.sstats]
      by_cases ha : e.2.asgt = a ∧ e.1 = j
      · rw [if_pos ha, List.filter_cons_of_pos (by simpa using ha), List.map_cons,
          List.foldl_cons, h.bounds]
      · rw [if_neg ha, List.filter_cons_of_neg (by simpa using ha)]

namespace Stats

variable (s : Stats F n) (a b : Fin n) (i j : Nat) (f : Sample F → Sample F)

@[simp] theorem cstats_setClass : (s.setClass a f).cstats b = if b = a then f
    (s.cstats a) else s.cstats b := by
  simp only [setClass, Function.update_apply]

@[simp] theorem sstats_setClass : (s.setClass a f).sstats b j = s.sstats b j := rfl

@[simp] theorem cstats_setSection : (s.setSection a i f).cstats b = s.cstats b := rfl

@[simp] theorem sstats_setSection :
    (s.setSection a i f).sstats b j = if b = a ∧ j = i then f (s.sstats a i) else s.sstats b j := by
  simp only [setSection, Function.update_apply]
  by_cases hb : b = a
  · subst hb
    simp [Function.update_apply]
  · simp [hb]

end Stats

theorem follows_tally [Zero F] [BEq F] [LT F] [DecidableLT F] :
    Follows (fun (s : Stats F n) i sc =>
      (s.setClass sc.asgt (tally sc.grade)).setSection sc.asgt i (tally sc.grade)) tally := by
  refine ⟨fun g p => rfl, fun s i sc a => ?_, fun s i sc a j => ?_⟩
  · by_cases ha : sc.asgt = a
    · subst ha
      simp
    · simp [ha, Ne.symm ha]
  · by_cases ha : sc.asgt = a ∧ i = j
    · obtain ⟨rfl, rfl⟩ := ha
      simp
    · have hne : ¬(a = sc.asgt ∧ j = i) := fun ⟨h₁, h₂⟩ => ha ⟨h₁.symm, h₂.symm⟩
      simp [ha, hne]

theorem core_spread [Zero F] [LT F] [DecidableLT F] (g : F) (p : Sample F) :
    core (spread g p) = core p := by
  simp only [spread, core]
  split <;> split <;> rfl

theorem core_addScore (g : ℚ) {p q : Sample ℚ} (h : core p = core q) :
    core (addScore g p) = core (addScore g q) := by
  simp only [core, addScore, Sample.mk.injEq, true_and] at h ⊢
  grind

-- The bounds of the class may change twice.
theorem follows_bounds [Zero F] [LT F] [DecidableLT F] :
    Follows (boundScore (F := F) (n := n)) fun _ p => { p with valid := p.valid + 1 } := by
  refine ⟨fun g p => rfl, fun s i sc a => ?_, fun s i sc a j => ?_⟩
  · by_cases ha : sc.asgt = a
    · subst ha
      by_cases hclass : (s.cstats sc.asgt).valid = 0
        <;> by_cases hsection : (s.sstats sc.asgt i).valid = 0 <;>
        simp only [boundScore, hclass, hsection, Stats.cstats_setClass, Stats.cstats_setSection,
          Stats.sstats_setClass, if_true, if_false]
      · rfl
      · exact core_spread _ _
      · exact core_spread _ _
      · exact (core_spread _ _).trans (core_spread _ _)
    · by_cases hclass : (s.cstats sc.asgt).valid = 0
        <;> by_cases hsection : (s.sstats sc.asgt i).valid = 0 <;>
        simp [boundScore, hclass, hsection, ha, Ne.symm ha]
  · by_cases ha : sc.asgt = a ∧ i = j
    · obtain ⟨rfl, rfl⟩ := ha
      by_cases hclass : (s.cstats sc.asgt).valid = 0
        <;> by_cases hsection : (s.sstats sc.asgt i).valid = 0 <;>
        simp only [boundScore, hclass, hsection, Stats.sstats_setClass, Stats.sstats_setSection,
          and_self, if_true, if_false] <;> rfl
    · have hne : ¬(a = sc.asgt ∧ j = i) := fun ⟨h₁, h₂⟩ => ha ⟨h₁.symm, h₂.symm⟩
      by_cases hclass : (s.cstats sc.asgt).valid = 0
        <;> by_cases hsection : (s.sstats sc.asgt i).valid = 0 <;>
        simp [boundScore, hclass, hsection, ha, hne]

theorem follows_sums : Follows (sumScore (n := n)) sumUp := by
  refine ⟨fun g p => rfl, fun s i sc a => ?_, fun s i sc a j => ?_⟩
  · have hbounds := follows_bounds.cstats s i sc a
    by_cases ha : sc.asgt = a
    · subst ha
      simp only [if_true] at hbounds ⊢
      simp only [sumScore, Stats.cstats_setSection, Stats.cstats_setClass, if_true]
      exact core_addScore _ hbounds
    · simpa [sumScore, ha, Ne.symm ha] using hbounds
  · have hbounds := follows_bounds.sstats s i sc a j
    by_cases ha : sc.asgt = a ∧ i = j
    · obtain ⟨rfl, rfl⟩ := ha
      simp only [and_self, if_true] at hbounds ⊢
      simp only [sumScore, Stats.sstats_setSection, Stats.sstats_setClass, and_self, if_true]
      exact core_addScore _ hbounds
    · have hne : ¬(a = sc.asgt ∧ j = i) := fun ⟨h₁, h₂⟩ => ha ⟨h₁.symm, h₂.symm⟩
      simpa [sumScore, ha, hne] using hbounds

theorem core_moments (p : Sample ℚ) : core (moments sqrt p) = moments sqrt (core p) := by
  by_cases hzero : p.valid = 0
  · simp [moments, core, hzero]
  · by_cases hone : p.valid = 1 <;> simp [moments, core, hzero, hone]

-- The statistics of a table are those of the grades that it has got.
theorem statistics_cstats (c : Course ℚ n) (a : Fin n) : core ((statistics sqrt c).cstats a) =
    sampleOf sqrt (((entries (doLinks c)).filter fun e => e.2.asgt = a).map fun e =>
      e.2.grade) := by
  simp only [statistics, doMoments, doSums, doFreqs, forScores_eq]
  rw [core_moments, follows_sums.fold_cstats]
  simp only [doQuantiles]
  rw [sampleOf]
  congr 2
  exact congrArg fillQuantiles (follows_tally.fold_cstats (entries (doLinks c)) (buildstats n) a)

theorem statistics_sstats (c : Course ℚ n) (a : Fin n) (i : Nat) :
    core ((statistics sqrt c).sstats a i) =
    sampleOf sqrt (((entries (doLinks c)).filter fun e => e.2.asgt = a ∧ e.1 = i).map fun e =>
      e.2.grade) := by
  simp only [statistics, doMoments, doSums, doFreqs, forScores_eq]
  rw [core_moments, follows_sums.fold_sstats]
  simp only [doQuantiles]
  rw [sampleOf]
  congr 2
  exact congrArg fillQuantiles (follows_tally.fold_sstats (entries (doLinks c)) (buildstats n) a i)

theorem doLinks_eq (c : Course F n) (hn : n ≠ 0) : doLinks c = rosterFrom 0 c.sections := by
  have hconst (l : List (Assignment F)) (x y : List (Nat × Student F n)) (hl : l ≠ []) :
      l.foldl (fun _ _ => x) y = x := by
    induction l generalizing y with
    | nil => exact absurd rfl hl
    | cons b rest ih =>
        cases rest with
        | nil => rfl
        | cons d rest => exact ih x (by simp)
  refine hconst _ _ _ fun hnil => hn ?_
  simpa using congrArg List.length hnil

theorem entries_append (first second : List (Nat × Student F n)) :
    entries (first ++ second) = entries first ++ entries second := by
  rw [entries, List.flatMap_append]
  rfl

-- The entries of one section.
theorem entries_section (i : Nat) (s : Section F n) :
    entries (s.roster.map (i, ·)) = ((scoresOf s).filter (counted ·)).map (i, ·) := by
  simp only [entries, scoresOf, List.flatMap_map, List.filter_flatMap, List.map_flatMap]

theorem class_grades (i : Nat) (sections : List (Section F n)) (a : Fin n) :
    (((entries (rosterFrom i sections)).filter fun e => e.2.asgt = a).map fun e => e.2.grade) =
      gradesOf a (sections.flatMap scoresOf) := by
  induction sections generalizing i with
  | nil => rfl
  | cons s rest ih =>
      rw [rosterFrom, entries_append, List.filter_append, List.map_append, ih, entries_section,
        List.flatMap_cons]
      simp [gradesOf, List.filter_map, Function.comp_def, List.filter_filter, Bool.and_comm]

theorem place_le {i : Nat} {sections : List (Section F n)} {e : Nat × Score F n}
    (he : e ∈ entries (rosterFrom i sections)) : i ≤ e.1 := by
  induction sections generalizing i with
  | nil => simp [rosterFrom, entries] at he
  | cons s rest ih =>
      rw [rosterFrom, entries_append, List.mem_append] at he
      rcases he with he | he
      · rw [entries_section] at he
        obtain ⟨sc, -, rfl⟩ := List.mem_map.mp he
        exact Nat.le_refl i
      · exact Nat.le_of_succ_le (ih he)

theorem section_grades (i : Nat) (sections : List (Section F n)) (a : Fin n) {j : Nat}
    (hj : j < sections.length) :
    (((entries (rosterFrom i sections)).filter fun e => e.2.asgt = a ∧ e.1 = i + j).map fun e =>
      e.2.grade) =
      gradesOf a (scoresOf sections[j]) := by
  induction sections generalizing i j with
  | nil => cases hj
  | cons s rest ih =>
      rw [rosterFrom, entries_append, List.filter_append, List.map_append, entries_section]
      cases j with
      | zero =>
          have hrest : (entries (rosterFrom (i + 1) rest)).filter (fun e => e.2.asgt = a ∧
              e.1 = i + 0) = [] := by
            rw [List.filter_eq_nil_iff]
            intro e he
            have hle := place_le he
            simp only [decide_eq_true_eq]
            omega
          rw [hrest]
          simp [gradesOf, List.filter_map, Function.comp_def, List.filter_filter, Bool.and_comm]
      | succ j =>
          have hfront : (((scoresOf s).filter (counted ·)).map (i, ·)).filter
              (fun e => e.2.asgt = a ∧ e.1 = i + (j + 1)) = [] := by
            rw [List.filter_eq_nil_iff]
            intro e he
            obtain ⟨sc, -, rfl⟩ := List.mem_map.mp he
            simp
          rw [hfront, List.map_nil, List.nil_append, List.getElem_cons_succ, ← ih (i + 1)]
          rw [show i + 1 + j = i + (j + 1) by omega]

end CSE320.Grades
