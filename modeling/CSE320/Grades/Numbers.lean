import CSE320.Grades.Frequency
import CSE320.Lib.Number

namespace CSE320.Grades

open Lib (Number)

variable {F α : Type} {n : Nat}

theorem gradesOf_flatMap (a : Fin n) (sections : List (Section F n)) :
    (gradesOf a (sections.flatMap scoresOf)).length =
      (sections.map fun s => (gradesOf a (scoresOf s)).length).sum := by
  induction sections with
  | nil => rfl
  | cons s rest ih =>
      rw [List.flatMap_cons, List.map_cons, List.sum_cons, ← ih, gradesOf, List.filter_append,
        List.map_append, List.length_append]
      rfl

theorem mem_gradesOf_section {a : Fin n} {sections : List (Section F n)} {s : Section F n} {g : F}
    (hs : s ∈ sections) (hg : g ∈ gradesOf a (scoresOf s)) :
    g ∈ gradesOf a (sections.flatMap scoresOf) := by
  obtain ⟨sc, hsc, rfl⟩ := List.mem_map.mp hg
  obtain ⟨hmem, hcounts⟩ := List.mem_filter.mp hsc
  exact List.mem_map_of_mem (List.mem_filter.mpr ⟨List.mem_flatMap.mpr ⟨s, hs, hmem⟩, hcounts⟩)

section

variable [Zero F] [BEq F] [LT F] [DecidableLT F]

-- The tables before do_quantiles.
def tallied (c : Course F n) : Stats F n := doFreqs (doLinks c) (buildstats n)

-- The tables and the numbers of tallied scores of an assignment, for the class and for each
-- section.
structure TablesRight [LE F] [DecidableLE F] (c : Course F n) (a : Fin n) : Prop where
  cstats : Counts (gradesOf a (c.sections.flatMap scoresOf)) ((doQuantiles (tallied c)).cstats a)
  sstats : ∀ i : Fin c.sections.length,
    Counts (gradesOf a (scoresOf (c.sections.get i))) ((doQuantiles (tallied c)).sstats a i)
  total : ((doQuantiles (tallied c)).cstats a).tallied =
    (List.ofFn fun i : Fin c.sections.length => ((doQuantiles (tallied c)).sstats a i).tallied).sum

-- Each table gets the scores of its own group.
theorem tallied_cstats (c : Course F n) (a : Fin n) : core ((tallied c).cstats a) =
    (gradesOf a (c.sections.flatMap scoresOf)).foldl (fun p g => tally g p) newstats := by
  rw [tallied, doFreqs, forScores_eq, follows_tally.fold_cstats, doLinks_eq c (Fin.pos a).ne',
    class_grades]
  rfl

theorem tallied_sstats (c : Course F n) (a : Fin n) (i : Fin c.sections.length) :
    core ((tallied c).sstats a i) =
    (gradesOf a (scoresOf c.sections[i])).foldl (fun p g => tally g p) newstats := by
  have hsection := section_grades 0 c.sections a i.isLt
  rw [Nat.zero_add] at hsection
  rw [tallied, doFreqs, forScores_eq, follows_tally.fold_sstats,
    doLinks_eq c (Fin.pos a).ne', hsection]
  rfl

end

-- A bucket of a table of values, as one of numbers.
def Freqs.value (f : Freqs α) : Freqs (Number α) :=
  ⟨.value f.score, f.count, f.numless, f.numlesseq⟩

theorem quantiles_value (sum : Nat) (freqs : List (Freqs α)) :
    quantiles sum (freqs.map Freqs.value) = (quantiles sum freqs).map Freqs.value := by
  induction freqs generalizing sum with
  | nil => rfl
  | cons f rest ih => exact congrArg (_ :: ·) (ih _)

section

variable [LinearOrder α] {xs : List α} {p : Sample α} {p' : Sample (Number α)}

theorem countScore_value (x : α) (freqs : List (Freqs α)) :
    countScore (.value x) (freqs.map Freqs.value) = (countScore x freqs).map Freqs.value := by
  induction freqs with
  | nil => rfl
  | cons f rest ih =>
      rw [List.map_cons, countScore, countScore, Freqs.value, Number.value_beq_value]
      by_cases hsame : (f.score == x) = true
      · rw [if_pos hsame, if_pos hsame]
        rfl
      · rw [if_neg hsame, if_neg hsame]
        by_cases hgreater : f.score > x
        · rw [if_pos hgreater, if_pos ((Number.value_lt_value _ _).mpr hgreater)]
          rfl
        · rw [if_neg hgreater, if_neg (mt (Number.value_lt_value _ _).mp hgreater), ih]
          rfl

-- As long as values are tallied, the table is one of values.
theorem tally_value (p : Sample α) (p' : Sample (Number α)) (xs : List α)
    (hfreqs : p'.freqs = p.freqs.map Freqs.value) (htallied : p'.tallied = p.tallied) :
    ((xs.map Number.value).foldl (fun p g => tally g p) p').freqs =
        (xs.foldl (fun p g => tally g p) p).freqs.map Freqs.value ∧
      ((xs.map Number.value).foldl (fun p g => tally g p) p').tallied =
        (xs.foldl (fun p g => tally g p) p).tallied := by
  induction xs generalizing p p' with
  | nil => exact ⟨hfreqs, htallied⟩
  | cons x xs ih =>
      refine ih _ _ ?_ ?_
      · show countScore (Number.value x) p'.freqs = (countScore x p.freqs).map Freqs.value
        rw [hfreqs, countScore_value]
      · exact congrArg (· + 1) htallied

theorem Counts.value (h : Counts xs p) (hfreqs : p'.freqs = p.freqs.map Freqs.value)
    (htallied : p'.tallied = p.tallied) : Counts (xs.map Number.value) p' := by
  have hmem {f : Freqs (Number α)} (hf : f ∈ p'.freqs) : ∃ f₀ ∈ p.freqs, Freqs.value f₀ = f := by
    rw [hfreqs] at hf
    exact List.mem_map.mp hf
  refine ⟨?_, fun f hf => ?_, fun f hf => ?_, fun f hf => ?_, ?_, ?_⟩
  · rw [hfreqs]
    exact List.pairwise_map.mpr h.increasing
  · obtain ⟨f₀, hf₀, rfl⟩ := hmem hf
    rw [List.count, List.countP_map]
    exact h.count f₀ hf₀
  · obtain ⟨f₀, hf₀, rfl⟩ := hmem hf
    rw [List.countP_map]
    exact h.numless f₀ hf₀
  · obtain ⟨f₀, hf₀, rfl⟩ := hmem hf
    rw [List.countP_map]
    exact h.numlesseq f₀ hf₀
  · rw [hfreqs, htallied, ← h.total, List.map_map]
    rfl
  · rw [htallied, h.tallied, List.length_map]

theorem counts_values [Zero α] (xs : List α) {p : Sample (Number α)}
    (hcore : core p = fillQuantiles ((xs.map Number.value).foldl (fun p g => tally g p) newstats)) :
    Counts (xs.map Number.value) p := by
  obtain ⟨hfreqs, htallied⟩ := tally_value newstats newstats xs rfl rfl
  refine (tabulates_fold xs).toCounts.value ?_ ?_
  · rw [show p.freqs = (core p).freqs from rfl, hcore, fillQuantiles, hfreqs, quantiles_value]
    rfl
  · exact (congrArg Sample.tallied hcore).trans htallied

end

section

variable [LinearOrder α] {freqs : List (Freqs (Number α))} {g s : Number α}

-- Each nan gets a bucket of its own behind all others.
theorem countScore_nan (freqs : List (Freqs (Number α))) :
    countScore .nan freqs = freqs ++ [⟨.nan, 1, 0, 0⟩] := by
  induction freqs with
  | nil => rfl
  | cons f rest ih =>
      rw [countScore, Number.beq_nan, if_neg Bool.false_ne_true, if_neg (Number.not_nan_lt _), ih]
      rfl

-- A bucket stays in its table.
theorem countScore_keeps (h : ∃ f ∈ freqs, f.score = s ∧ 0 < f.count) :
    ∃ f ∈ countScore g freqs, f.score = s ∧ 0 < f.count := by
  induction freqs with
  | nil => simp at h
  | cons f rest ih =>
      rw [countScore]
      split
      · simp only [List.mem_cons, exists_eq_or_imp] at h ⊢
        rcases h with ⟨hscore, -⟩ | h
        · exact Or.inl ⟨hscore, Nat.succ_pos _⟩
        · exact Or.inr h
      · split
        · obtain ⟨x, hx, h⟩ := h
          exact ⟨x, List.mem_cons_of_mem _ hx, h⟩
        · simp only [List.mem_cons, exists_eq_or_imp] at h ⊢
          exact h.imp_right ih

theorem tally_nan {grades : List (Number α)} {p : Sample (Number α)}
    (h : .nan ∈ grades ∨ ∃ f ∈ p.freqs, f.score = .nan ∧ 0 < f.count) :
    ∃ f ∈ (grades.foldl (fun p g => tally g p) p).freqs, f.score = .nan ∧ 0 < f.count := by
  induction grades generalizing p with
  | nil => exact h.resolve_left List.not_mem_nil
  | cons g rest ih =>
      apply ih
      rw [List.mem_cons] at h
      rcases h with (rfl | h) | h
      · refine Or.inr ⟨⟨.nan, 1, 0, 0⟩, ?_, rfl, Nat.one_pos⟩
        show _ ∈ countScore .nan p.freqs
        rw [countScore_nan]
        exact List.mem_append_right _ (List.mem_singleton_self _)
      · exact Or.inl h
      · exact Or.inr (countScore_keeps h)

theorem mem_quantiles_of_mem {f : Freqs F} {freqs : List (Freqs F)} (sum : Nat) (hf : f ∈ freqs) :
    ∃ f' ∈ quantiles sum freqs, f'.score = f.score ∧ f.count ≤ f'.numlesseq := by
  induction freqs generalizing sum with
  | nil => cases hf
  | cons first rest ih =>
      rw [quantiles]
      rcases List.mem_cons.mp hf with rfl | hf
      · exact ⟨_, List.mem_cons_self, rfl, Nat.le_add_left _ _⟩
      · obtain ⟨f', hf', h⟩ := ih (sum + first.count) hf
        exact ⟨f', List.mem_cons_of_mem _ hf', h⟩

-- No grade is smaller than nan or equal to it, but its bucket says that one is.
theorem not_counts_nan [Zero α] {grades : List (Number α)} {p : Sample (Number α)}
    (hnan : .nan ∈ grades)
    (hcore : core p = fillQuantiles (grades.foldl (fun p g => tally g p) newstats)) :
    ¬Counts grades p := by
  intro h
  obtain ⟨f, hf, hscore, hcount⟩ := tally_nan (p := newstats) (Or.inl hnan)
  obtain ⟨f', hf', hscore', hle⟩ := mem_quantiles_of_mem 0 hf
  have hmem : f' ∈ p.freqs := by
    rw [show p.freqs = (core p).freqs from rfl, hcore]
    exact hf'
  have hnone : grades.countP (· ≤ f'.score) = 0 := by
    rw [List.countP_eq_zero, hscore', hscore]
    intro g _
    simp
  have hlesseq := h.numlesseq f' hmem
  omega

end

section

variable [LinearOrder α] [Zero α]

theorem fill_cstats (c : Course F n) [Zero F] [BEq F] [LT F] [DecidableLT F] (a : Fin n) :
    core ((doQuantiles (tallied c)).cstats a) = fillQuantiles
      ((gradesOf a (c.sections.flatMap scoresOf)).foldl (fun p g => tally g p) newstats) :=
  congrArg fillQuantiles (tallied_cstats c a)

theorem fill_sstats (c : Course F n) [Zero F] [BEq F] [LT F] [DecidableLT F] (a : Fin n)
    (i : Fin c.sections.length) : core ((doQuantiles (tallied c)).sstats a i) = fillQuantiles
      ((gradesOf a (scoresOf c.sections[i])).foldl (fun p g => tally g p) newstats) :=
  congrArg fillQuantiles (tallied_sstats c a i)

theorem tablesRight_iff (c : Course (Number α) n) (a : Fin n) :
    TablesRight c a ↔ ∀ g ∈ gradesOf a (c.sections.flatMap scoresOf), g ≠ .nan := by
  constructor
  · rintro h g hg rfl
    exact not_counts_nan hg (fill_cstats c a) h.cstats
  · intro h
    have hcounts {grades : List (Number α)} {p : Sample (Number α)}
        (hgrades : ∀ g ∈ grades, g ≠ .nan)
        (hcore : core p = fillQuantiles (grades.foldl (fun p g => tally g p) newstats)) :
        Counts grades p := by
      obtain ⟨xs, rfl⟩ := (Number.values_or_nan grades).mpr hgrades
      exact counts_values xs hcore
    have hclass := hcounts h (fill_cstats c a)
    have hsection (i : Fin c.sections.length) := hcounts
      (fun g hg => h g (mem_gradesOf_section (List.getElem_mem i.isLt) hg)) (fill_sstats c a i)
    refine ⟨hclass, hsection, ?_⟩
    have hlengths : (List.ofFn fun i : Fin c.sections.length =>
        ((doQuantiles (tallied c)).sstats a i).tallied) =
        c.sections.map fun s => (gradesOf a (scoresOf s)).length := by
      rw [← List.ofFn_getElem_eq_map]
      exact congrArg List.ofFn (funext fun i => (hsection i).tallied)
    rw [hclass.tallied, gradesOf_flatMap, hlengths]

-- The tables are right exactly where no tallied score is nan.
theorem tables_tabulate_iff (c : Course (Number α) n) : (∀ a, TablesRight c a) ↔
    ∀ a, ∀ g ∈ gradesOf a (c.sections.flatMap scoresOf), g ≠ .nan :=
  forall_congr' (tablesRight_iff c)

end

-- An assignment hw with one student, who has got SCORE hw nan.
def nanCourse : Course (Number ℚ) 1 where
  number := [67]
  title := [84]
  professor := none
  assignments := #v[{
    name := Lib.ascii "hw", atype := Lib.ascii "home", wpolicy := .noweight, weight := 0
    npolicy := .raw, max := 0, mean := 0, stddev := 0, scale := 0, ngroup := .byclass }]
  sections :=
    let score : Score (Number ℚ) 1 := ⟨⟨0, Nat.one_pos⟩, .nan, 0, 0, 0, .valid, [], .useraw⟩
    [⟨[65], none, [⟨[1], [1], [1], [score], [], 0⟩]⟩]

-- The only bucket counts a score at or below nan.
theorem tables_not_tabulate : ¬∀ a, TablesRight nanCourse a := fun h =>
  not_counts_nan (List.mem_singleton_self _) (fill_cstats nanCourse 0) (h 0).cstats

end CSE320.Grades
