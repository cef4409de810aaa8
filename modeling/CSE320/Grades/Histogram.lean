import CSE320.Grades.Extremes
import CSE320.Grades.Numbers
import CSE320.Grades.Spans

namespace CSE320.Grades

open Lib (Number Binary)
open Lib.Binary (single)

variable {n : Nat}

-- The statistics as far as they are read here. The sums and moments, which are doubles, and
-- normalize leave the tables and the bounds of the class alone.
def boundStats (c : Course Single n) : Stats Single n :=
  forScores (doLinks c) boundScore (doQuantiles (tallied c))

-- What normalize and composites may change of what is read here: the composite scores, and the
-- maxima of assignments that are too small.
def leftRoster (c : Course Single n) (composite : Fin (doLinks c).length → Single) :
    List (Student Single n) :=
  List.ofFn fun i => { (doLinks c)[i].2 with composite := composite i }

def leftAssignments (c : Course Single n) (max : Fin n → Single) (a : Fin n) : Assignment Single :=
  { c.assignments.get a with max := max a }

-- No index is outside of the bins, and every student and every tallied score is in one.
def HistosRight (c : Course Single n) (composite : Fin (doLinks c).length → Single)
    (max : Fin n → Single) : Prop :=
  ∃ first rest,
    reporthistos (leftRoster c composite) (leftAssignments c max) (boundStats c) =
      some (first, rest) ∧
    ∑ col, first col = (doLinks c).length ∧
    List.Forall₂ (fun a bins => ∑ col, bins col = ((boundStats c).cstats a).tallied)
      (List.finRange n) rest

-- A score that has a bin below a maximum.
def Below : Single → Single → Prop
  | .value .pos, .value (.finite s) => 49 * |s.val| < overflow
  | .value (.finite m), .value (.finite s) => 49 * |s.val| < overflow ∧
    (0 < m.val ∧ -m.val < single.nearest (49 * s.val) ∨
      m.val < 0 ∧ (50 - 1 / 2 ^ 19) * m.val < single.nearest (49 * s.val))
  | _, _ => False

def InBins (max score : Single) : Prop := max < score ∨ Below max score

section

variable {max score : Single}

theorem histoMax_beq (declared actual : Single) : (histoMax declared actual == 0) = false := by
  obtain ⟨one, hone, hval⟩ := exists_ofInt (k := 1) (by decide)
  push_cast at hval
  rw [histoMax]
  split
  · split
    · rw [hone, Number.zero_eq, Number.value_beq_value]
      refine beq_eq_false_iff_ne.mpr fun h => ?_
      have hzero := congrArg Binary.Finite.val (Binary.Extended.finite.inj h)
      rw [hval] at hzero
      exact one_ne_zero hzero
    · exact Bool.eq_false_of_not_eq_true ‹_›
  · exact Bool.eq_false_of_not_eq_true ‹_›

-- A score that is not above a finite maximum.
theorem binned_finite_iff {m s : single.Finite} (hm : m.val ≠ 0) (hle : s.val ≤ m.val) :
    Binned (Binary.toInt (single.ofInt 49 * .value (.finite s) / .value (.finite m))) ↔
      49 * |s.val| < overflow ∧ (0 < m.val ∧ -m.val < single.nearest (49 * s.val) ∨
        m.val < 0 ∧ (50 - 1 / 2 ^ 19) * m.val < single.nearest (49 * s.val)) := by
  by_cases hover : 49 * |s.val| < overflow
  · rw [binned_iff hover hm, and_iff_right hover]
    rcases lt_or_gt_of_ne hm with hneg | hpos
    · have hproduct : single.nearest (49 * s.val) ≤ 0 := by
        have hmono := single.nearest_mono (show 49 * s.val ≤ 0 by linarith)
        rwa [single.nearest_zero] at hmono
      have hquotient := single.nearest_nonneg (div_nonneg_of_nonpos hproduct hneg.le)
      rw [nearest_lt_fifty_iff, div_lt_iff_of_neg hneg]
      constructor
      · exact fun h => Or.inr ⟨hneg, h.2⟩
      · rintro (⟨h, -⟩ | ⟨-, h⟩)
        · exact absurd h hneg.not_gt
        · exact ⟨neg_one_lt_zero.trans_le hquotient, h⟩
    · have hless := nearest_quotient_lt hle hpos
      rw [and_iff_left hless]
      have hbelow : -1 < single.nearest (single.nearest (49 * s.val) / m.val) ↔
          -m.val < single.nearest (49 * s.val) := by
        rcases le_or_gt 0 (single.nearest (49 * s.val)) with hnonneg | hneg
        · have hquotient := single.nearest_nonneg (div_nonneg hnonneg hpos.le)
          exact ⟨fun _ => by linarith, fun _ => by linarith⟩
        · have hexact : single.Exact (-single.nearest (49 * s.val)) := by
            rw [Binary.Exact, single.nearest_neg, single.exact_nearest (49 * s.val)]
          have hone := single.nearest_div_lt_one_iff hexact m.exact (by linarith) hpos (by decide)
          rw [neg_div, single.nearest_neg] at hone
          rw [neg_lt, hone, neg_lt]
      rw [hbelow]
      exact ⟨fun h => Or.inl ⟨hpos, h⟩, fun h =>
        (h.resolve_right fun h => h.1.not_gt hpos).2⟩
  · exact iff_of_false (not_binned_of_overflow (not_lt.mp hover)) fun h => hover h.1

-- Below an infinite maximum every product is in the first bin.
theorem binned_pos_iff {s : single.Finite} :
    Binned (Binary.toInt (single.ofInt 49 * .value (.finite s) / .value .pos)) ↔
      49 * |s.val| < overflow := by
  refine ⟨fun h => ?_, fun hover => ?_⟩
  · by_contra hnot
    exact not_binned_of_overflow (not_lt.mp hnot) h
  · rw [fortyNine_mul_finite, Binary.round_of_lt (product_lt_iff.mpr hover)]
    refine (Binary.toInt_range (0 : Single) (by decide) (by decide)).mpr ⟨0, rfl, ?_⟩
    rw [Binary.val_zero]
    norm_num

-- The bins of the scores of an assignment, for every kind of maximum and score.
theorem binOf_iff (hmax : (max == 0) = false) : Binned (binOf max score) ↔ InBins max score := by
  rw [binOf, InBins]
  by_cases hgreater : max < score
  · rw [if_pos hgreater]
    exact ⟨fun _ => Or.inl hgreater, fun _ => ⟨49, rfl, by decide⟩⟩
  · rw [if_neg hgreater, or_iff_right hgreater]
    rcases score with _ | _ | s | _
    · rw [Binary.mul_nan, Binary.nan_div]
      exact iff_of_false (not_binned_of_none rfl) (by rcases max with _ | _ | _ | _ <;> exact id)
    · rw [fortyNine_mul_neg]
      exact iff_of_false (not_binned_of_none (Binary.toInt_infinite_div _ (Or.inr rfl)))
        (by rcases max with _ | _ | _ | _ <;> exact id)
    · rcases max with _ | _ | m | _
      · rw [Binary.div_nan]
        exact iff_of_false (not_binned_of_none rfl) id
      · exact absurd (Binary.Extended.neg_lt_finite) hgreater
      · refine binned_finite_iff (fun h => ?_) ?_
        · rw [Number.zero_eq, Number.value_beq_value] at hmax
          exact beq_eq_false_iff_ne.mp hmax (congrArg Binary.Extended.finite (Binary.Finite.ext h))
        · exact not_lt.mp fun h => hgreater (Binary.Extended.finite_lt_finite.mpr h)
      · exact binned_pos_iff
    · rw [fortyNine_mul_pos]
      exact iff_of_false (not_binned_of_none (Binary.toInt_infinite_div _ (Or.inl rfl)))
        (by rcases max with _ | _ | _ | _ <;> exact id)

theorem assignmentHisto_spec (hmax : (max == 0) = false) (freqs : List (Freqs Single)) :
    ((∀ f ∈ freqs, InBins max f.score) → ∃ bins, assignmentHisto max freqs = some bins ∧
      ∑ col, bins col = (freqs.map Freqs.count).sum) ∧
    ((∃ bins, assignmentHisto max freqs = some bins) → ∀ f ∈ freqs, InBins max f.score) := by
  obtain ⟨hall, hsome⟩ := tallyBins_spec (freqs.map fun f => (binOf max f.score, f.count)) noTallies
  rw [List.forall_mem_map] at hall hsome
  refine ⟨fun h => ?_, fun h f hf => (binOf_iff hmax).mp (hsome h f hf)⟩
  obtain ⟨bins, hrun, hsum⟩ := hall fun f hf => (binOf_iff hmax).mpr (h f hf)
  exact ⟨bins, hrun, by simpa [noTallies, Function.comp_def] using hsum⟩

theorem assignmentHistos_spec (asgts : Fin n → Assignment Single) {stats : Stats Single n}
    {total : Fin n → Nat}
    (htotal : ∀ a, ((stats.cstats a).freqs.map Freqs.count).sum = total a) (list : List (Fin n)) :
    (∃ rest, assignmentHistos asgts stats list = some rest ∧
      List.Forall₂ (fun a bins => ∑ col, bins col = total a) list rest) ↔
    ∀ a ∈ list, ∀ f ∈ (stats.cstats a).freqs,
      InBins (histoMax (asgts a).max (stats.cstats a).max) f.score := by
  induction list with
  | nil => exact ⟨fun _ => by simp, fun _ => ⟨[], rfl, .nil⟩⟩
  | cons a list ih =>
      obtain ⟨hall, hsome⟩ :=
        assignmentHisto_spec (histoMax_beq (asgts a).max (stats.cstats a).max)
        (stats.cstats a).freqs
      constructor
      · rintro ⟨rest, hrun, hrest⟩
        rw [assignmentHistos] at hrun
        obtain ⟨bins, hbins, hrun⟩ := Option.bind_eq_some_iff.mp hrun
        obtain ⟨others, hothers, hrun⟩ := Option.bind_eq_some_iff.mp hrun
        obtain rfl := Option.some.inj hrun
        have hlater := ih.mp ⟨others, hothers, (List.forall₂_cons.mp hrest).2⟩
        exact List.forall_mem_cons.mpr ⟨hsome ⟨bins, hbins⟩, hlater⟩
      · intro h
        obtain ⟨hfirst, hlater⟩ := List.forall_mem_cons.mp h
        obtain ⟨bins, hbins, hsum⟩ := hall hfirst
        obtain ⟨others, hothers, hrest⟩ := ih.mpr hlater
        refine ⟨bins :: others, ?_, .cons (hsum.trans (htotal a)) hrest⟩
        rw [assignmentHistos, hbins, Option.bind_eq_bind, Option.bind_some, hothers]
        rfl

end

section

variable (c : Course Single n) (a : Fin n)

-- The bounds are taken without a change of the table.
theorem boundStats_table :
    ((boundStats c).cstats a).freqs = ((doQuantiles (tallied c)).cstats a).freqs ∧
    ((boundStats c).cstats a).tallied = ((doQuantiles (tallied c)).cstats a).tallied := by
  have hcounted (grades : List Single) (p : Sample Single) :
      (grades.foldl (fun p _ => { p with valid := p.valid + 1 }) p).freqs = p.freqs ∧
      (grades.foldl (fun p _ => { p with valid := p.valid + 1 }) p).tallied = p.tallied := by
    induction grades generalizing p with
    | nil => exact ⟨rfl, rfl⟩
    | cons g rest ih => exact ih _
  have hcore := follows_bounds.fold_cstats (entries (doLinks c)) (doQuantiles (tallied c)) a
  rw [← forScores_eq] at hcore
  obtain ⟨hfreqs, htallied⟩ := hcounted _ (core ((doQuantiles (tallied c)).cstats a))
  exact ⟨(congrArg Sample.freqs hcore).trans hfreqs,
    (congrArg Sample.tallied hcore).trans htallied⟩

-- What holds of the sample of the class while its bounds are taken: among values, the greatest
-- one is found.
def TopFound (grades : List Single) (p : Sample Single) : Prop :=
  p.valid = grades.length ∧ ∀ es, es ≠ [] → grades = es.map Number.value →
    ∃ top, p.max = .value top ∧ IsGreatest {e | e ∈ es} top

theorem TopFound.step {grades : List Single} {p p' : Sample Single} {g : Single}
    (h : TopFound grades p) (hvalid : p'.valid = p.valid + 1)
    (hmax : p'.max = if p.valid = 0 then g else if p.max < g then g else p.max) :
    TopFound (grades ++ [g]) p' := by
  refine ⟨by rw [hvalid, h.1, List.length_append, List.length_singleton], fun es' _ heq => ?_⟩
  obtain ⟨es, last, rfl, rfl, hlast⟩ := List.map_eq_append_iff.mp heq.symm
  obtain ⟨x, rfl, rfl⟩ := List.map_eq_singleton_iff.mp hlast
  rw [hmax]
  by_cases hnil : es = []
  · subst hnil
    exact ⟨x, if_pos h.1, by simp [isGreatest_singleton]⟩
  · have hpos : p.valid ≠ 0 := by simpa [h.1] using hnil
    have hset : {e | e ∈ es ++ [x]} = insert x {e | e ∈ es} := by
      ext e
      simp [or_comm]
    obtain ⟨top, htop, hgreatest⟩ := h.2 es hnil rfl
    refine ⟨max x top, ?_, hset ▸ hgreatest.insert x⟩
    rw [if_neg hpos, htop, max_comm, max_def_lt, apply_ite Number.value]
    simp only [Number.value_lt_value]

theorem boundStats_max {es : List single.Extended} (hne : es ≠ [])
    (hgrades : gradesOf a (c.sections.flatMap scoresOf) = es.map Number.value) :
    ∃ top, ((boundStats c).cstats a).max = .value top ∧ IsGreatest {e | e ∈ es} top := by
  have hstart : TopFound [] ((doQuantiles (tallied c)).cstats a) :=
    ⟨(doFreqs_valid _ a 0).1, fun es hne heq => absurd (List.map_eq_nil_iff.mp heq.symm) hne⟩
  have hfound := sums_sample (fun s => s.cstats a) (fun e => e.2.asgt = a) TopFound
    (fun s e grades he h => by
      obtain rfl : e.2.asgt = a := by simpa using he
      obtain ⟨hvalid, -, hmax⟩ := boundScore_class s e.1 e.2 fun x => x.not_lt_self
      exact h.step hvalid hmax)
    (fun s e he => boundScore_class_other s e.1 e.2 a (by simpa using he))
      (entries (doLinks c)) hstart
  rw [List.nil_append, ← forScores_eq, doLinks_eq c (Fin.pos a).ne', class_grades] at hfound
  rw [boundStats, doLinks_eq c (Fin.pos a).ne']
  exact hfound.2 es hne hgrades

theorem boundStats_total : (((boundStats c).cstats a).freqs.map Freqs.count).sum =
    ((boundStats c).cstats a).tallied := by
  have htotal (grades : List Single) (p : Sample Single)
      (hp : (p.freqs.map Freqs.count).sum = p.tallied) :
      ((grades.foldl (fun p g => tally g p) p).freqs.map Freqs.count).sum =
        (grades.foldl (fun p g => tally g p) p).tallied := by
    induction grades generalizing p with
    | nil => exact hp
    | cons g rest ih =>
        refine ih (tally g p) ?_
        rw [tally, countScore_total, hp]
  obtain ⟨hfreqs, htallied⟩ := boundStats_table c a
  have hcore := fill_cstats c a
  rw [hfreqs, htallied, show ((doQuantiles (tallied c)).cstats a).freqs =
    (core ((doQuantiles (tallied c)).cstats a)).freqs from rfl, hcore, fillQuantiles,
    quantiles_counts, htotal _ newstats rfl]
  exact (congrArg Sample.tallied hcore).symm

-- The scores of the buckets.
theorem boundStats_scores : ((boundStats c).cstats a).freqs.map Freqs.score =
    ((gradesOf a (c.sections.flatMap scoresOf)).foldl (fun p g => tally g p)
      newstats).freqs.map Freqs.score := by
  rw [(boundStats_table c a).1, show ((doQuantiles (tallied c)).cstats a).freqs =
    (core ((doQuantiles (tallied c)).cstats a)).freqs from rfl, fill_cstats, fillQuantiles,
    quantiles_scores]

theorem score_of_mem_tally {grades : List Single} {p : Sample Single} {f : Freqs Single}
    (hf : f ∈ (grades.foldl (fun p g => tally g p) p).freqs) :
    f.score ∈ grades ∨ ∃ f' ∈ p.freqs, f'.score = f.score := by
  induction grades generalizing p with
  | nil => exact Or.inr ⟨f, hf, rfl⟩
  | cons g rest ih =>
      rcases ih hf with h | ⟨f', hf', hscore⟩
      · exact Or.inl (List.mem_cons_of_mem g h)
      · rcases score_of_mem_countScore hf' with h | ⟨x, hx, hscore'⟩
        · exact Or.inl (by rw [← hscore, h]; exact List.mem_cons_self)
        · exact Or.inr ⟨x, hx, hscore'.trans hscore⟩

theorem score_mem {f : Freqs Single} (hf : f ∈ ((boundStats c).cstats a).freqs) :
    f.score ∈ gradesOf a (c.sections.flatMap scoresOf) := by
  have hscore := List.mem_map_of_mem (f := Freqs.score) hf
  rw [boundStats_scores] at hscore
  obtain ⟨f', hf', heq⟩ := List.mem_map.mp hscore
  rw [← heq]
  rcases score_of_mem_tally hf' with h | ⟨_, h, -⟩
  · exact h
  · cases h

theorem exists_bucket {score : Single} (hvalue : score ≠ .nan → ∃ es : List single.Extended,
      gradesOf a (c.sections.flatMap scoresOf) = es.map Number.value)
    (hscore : score ∈ gradesOf a (c.sections.flatMap scoresOf)) :
    ∃ f ∈ ((boundStats c).cstats a).freqs, f.score = score := by
  rw [← List.mem_map (f := Freqs.score), boundStats_scores, List.mem_map]
  by_cases hnan : score = .nan
  · rw [hnan] at hscore ⊢
    obtain ⟨f, hf, h, -⟩ := tally_nan (p := newstats) (Or.inl hscore)
    exact ⟨f, hf, h⟩
  · obtain ⟨es, hes⟩ := hvalue hnan
    rw [hes] at hscore ⊢
    obtain ⟨e, he, rfl⟩ := List.mem_map.mp hscore
    obtain ⟨f, hf, rfl⟩ := (tabulates_fold es).found e he
    have hmem := List.mem_map_of_mem (f := Freqs.score) hf
    rw [fillQuantiles, quantiles_scores] at hmem
    obtain ⟨f', hf', heq⟩ := List.mem_map.mp hmem
    rw [(tally_value newstats newstats es rfl rfl).1]
    exact ⟨f'.value, List.mem_map_of_mem hf', congrArg Number.value heq⟩

theorem not_inBins_nan (m : Single) : ¬InBins m .nan := by
  rintro (h | h)
  · exact Number.not_lt_nan _ h
  · rcases m with _ | _ | _ | _ <;> exact h

-- The buckets of an assignment have bins when its scores have.
theorem buckets_iff (declared : Single) :
    (∀ f ∈ ((boundStats c).cstats a).freqs,
      InBins (histoMax declared ((boundStats c).cstats a).max) f.score) ↔
    ∀ score ∈ gradesOf a (c.sections.flatMap scoresOf),
      ∃ top ∈ gradesOf a (c.sections.flatMap scoresOf),
        (∀ g ∈ gradesOf a (c.sections.flatMap scoresOf), g ≤ top) ∧
        InBins (histoMax declared top) score := by
  by_cases hnan : ∀ g ∈ gradesOf a (c.sections.flatMap scoresOf), g ≠ .nan
  · obtain ⟨es, hes⟩ := (Number.values_or_nan _).mpr hnan
    have hmax {score : Single} (hscore : score ∈ gradesOf a (c.sections.flatMap scoresOf)) :
        ∃ e ∈ es, ((boundStats c).cstats a).max = .value e ∧ ∀ e' ∈ es, e' ≤ e := by
      have hne : es ≠ [] := by
        rintro rfl
        rw [hes] at hscore
        cases hscore
      obtain ⟨e, htop, hmem, hupper⟩ := boundStats_max c a hne hes
      exact ⟨e, hmem, htop, fun e' he' => hupper he'⟩
    constructor
    · intro h score hscore
      obtain ⟨e, he, htop, hupper⟩ := hmax hscore
      obtain ⟨f, hf, rfl⟩ := exists_bucket c a (fun _ => ⟨es, hes⟩) hscore
      refine ⟨.value e, ?_, fun g hg => ?_, htop ▸ h f hf⟩
      · rw [hes]
        exact List.mem_map_of_mem he
      · rw [hes] at hg
        obtain ⟨e', he', rfl⟩ := List.mem_map.mp hg
        exact hupper e' he'
    · intro h f hf
      obtain ⟨e, he, htop, hupper⟩ := hmax (score_mem c a hf)
      obtain ⟨top, hmem, hle, hbins⟩ := h f.score (score_mem c a hf)
      rw [hes] at hmem hle
      obtain ⟨e', he', rfl⟩ := List.mem_map.mp hmem
      have hge : e ≤ e' := hle _ (List.mem_map_of_mem he)
      rw [htop, le_antisymm hge (hupper e' he')]
      exact hbins
  · push Not at hnan
    obtain ⟨g, hg, rfl⟩ := hnan
    obtain ⟨f, hf, hscore⟩ := exists_bucket c a (fun h => absurd rfl h) hg
    refine iff_of_false (fun h => not_inBins_nan _ (hscore ▸ h f hf)) fun h => ?_
    obtain ⟨top, -, hle, -⟩ := h _ hg
    exact Number.not_nan_le _ (hle _ hg)

end

theorem reporthistos_eq_some {roster : List (Student Single n)} {asgts : Fin n → Assignment Single}
    {stats : Stats Single n} {first : Bins} {rest : List Bins} :
    reporthistos roster asgts stats = some (first, rest) ↔
      compositeHisto (roster.map Student.composite) = some first ∧
      assignmentHistos asgts stats (List.finRange n) = some rest := by
  rw [reporthistos]
  constructor
  · intro hrun
    obtain ⟨bins, hbins, hrun⟩ := Option.bind_eq_some_iff.mp hrun
    obtain ⟨others, hothers, hrun⟩ := Option.bind_eq_some_iff.mp hrun
    obtain ⟨rfl, rfl⟩ := Prod.mk.inj (Option.some.inj hrun)
    exact ⟨hbins, hothers⟩
  · rintro ⟨hfirst, hrest⟩
    rw [hfirst, hrest]
    rfl

-- The bins are right exactly where the composite scores do not span too much and each tallied
-- score has a bin below the maximum, which is the greatest score if none is declared.
theorem reporthistos_iff (c : Course Single n) (composite : Fin (doLinks c).length → Single)
    (max : Fin n → Single) : HistosRight c composite max ↔
    Spans (List.ofFn composite) ∧
    ∀ a, ∀ score ∈ gradesOf a (c.sections.flatMap scoresOf),
      ∃ top ∈ gradesOf a (c.sections.flatMap scoresOf),
        (∀ g ∈ gradesOf a (c.sections.flatMap scoresOf), g ≤ top) ∧
        InBins (histoMax (max a) top) score := by
  have hroster : (leftRoster c composite).map Student.composite = List.ofFn composite := by
    rw [leftRoster, List.map_ofFn]
    rfl
  obtain ⟨hspans, hsome⟩ := compositeHisto_spec (List.ofFn composite)
  have hassignments := assignmentHistos_spec (leftAssignments c max) (boundStats_total c)
    (List.finRange n)
  simp only [List.mem_finRange, true_implies] at hassignments
  have hbuckets : (∃ rest, assignmentHistos (leftAssignments c max) (boundStats c)
      (List.finRange n) = some rest ∧
      List.Forall₂ (fun a bins => ∑ col, bins col = ((boundStats c).cstats a).tallied)
        (List.finRange n) rest) ↔ _ :=
    hassignments.trans (forall_congr' fun a => buckets_iff c a (max a))
  rw [← hbuckets, HistosRight]
  constructor
  · rintro ⟨first, rest, hrun, -, hrest⟩
    obtain ⟨hfirst, hrest'⟩ := reporthistos_eq_some.mp hrun
    rw [hroster] at hfirst
    exact ⟨hsome ⟨first, hfirst⟩, rest, hrest', hrest⟩
  · rintro ⟨h, rest, hrest', hrest⟩
    obtain ⟨first, hfirst, hsum⟩ := hspans h
    rw [List.length_ofFn] at hsum
    exact ⟨first, rest, reporthistos_eq_some.mpr ⟨hroster ▸ hfirst, hrest'⟩, hsum, hrest⟩

-- A course with one assignment of the maximum 10, and one score for it.
def hwCourse (grade : Single) : Course Single 1 where
  number := [67]
  title := [84]
  professor := none
  assignments := #v[{
    name := Lib.ascii "hw", atype := Lib.ascii "home", wpolicy := .noweight, weight := 0
    npolicy := .raw, max := single.ofInt 10, mean := 0, stddev := 0, scale := 0
    ngroup := .byclass }]
  sections :=
    let score : Score Single 1 := ⟨⟨0, Nat.one_pos⟩, grade, 0, 0, 0, .valid, [], .useraw⟩
    [⟨[65], none, [⟨[1], [1], [1], [score], [], 0⟩]⟩]

-- The product of the score -1 is rounded to no other number.
theorem not_inBins_small (top : Single) :
    ¬InBins (histoMax (single.ofInt 10) top) (single.ofInt (-1)) := by
  obtain ⟨m, hm, hten⟩ := exists_ofInt (k := 10) (by decide)
  obtain ⟨s, hs, hone⟩ := exists_ofInt (k := -1) (by decide)
  push_cast at hten hone
  have hmax : histoMax (.value (.finite m)) top = .value (.finite m) := by
    rw [histoMax, if_neg]
    intro h
    have hzero := congrArg Binary.Finite.val (Binary.Extended.finite.inj (beq_iff_eq.mp h))
    rw [hten] at hzero
    norm_num at hzero
  have hproduct : single.nearest (49 * -1) = -49 := by
    have h := single.nearest_of_digits (k := -49) (e := 0) (by decide) (by decide)
    norm_num at h ⊢
    exact h
  rw [hm, hs, hmax]
  rintro (h | ⟨-, ⟨-, h⟩ | ⟨h, -⟩⟩)
  · have hless : m.val < s.val := Binary.Extended.finite_lt_finite.mp h
    rw [hten, hone] at hless
    norm_num at hless
  · rw [hten, hone, hproduct] at h
    norm_num at h
  · rw [hten] at h
    norm_num at h

theorem not_spans_large : ¬Spans [.value (single.round (2 ^ 123))] := by
  have hexact : single.nearest (2 ^ 123) = 2 ^ 123 := by
    have h := single.nearest_two_zpow (e := 123) (by decide)
    exact_mod_cast h
  rintro ⟨xs, hxs, h⟩
  obtain ⟨x, rfl, hx⟩ := List.map_eq_singleton_iff.mp hxs.symm
  have hval : x.val = 2 ^ 123 := by
    have hround : |single.nearest (2 ^ 123)| < single.bound := by
      rw [abs_overflow_iff]
      norm_num [overflow]
    rw [Binary.round_of_lt hround] at hx
    have heq := congrArg Binary.Finite.val (Binary.Extended.finite.inj (Number.value_injective hx))
    exact heq.trans hexact
  have hlarge := h x (List.mem_singleton_self x) 0 List.mem_cons_self
  rw [Binary.val_zero, sub_zero, hval, hexact] at hlarge
  norm_num [overflow] at hlarge

-- The score -1 has the index -4. The score 2 ^ 123 is too large to be multiplied by 49.
theorem reporthistos_not :
    ¬HistosRight (hwCourse (single.ofInt (-1))) (fun _ => single.ofInt (-1))
      (fun _ => single.ofInt 10) ∧
    ¬HistosRight (hwCourse (.value (single.round (2 ^ 123))))
      (fun _ => .value (single.round (2 ^ 123))) (fun _ => single.ofInt 10) := by
  constructor
  · rintro ⟨first, rest, hrun, -, hrest⟩
    have hbins := (assignmentHistos_spec (leftAssignments (hwCourse (single.ofInt (-1)))
      fun _ => single.ofInt 10) (boundStats_total _) _).mp
      ⟨rest, (reporthistos_eq_some.mp hrun).2, hrest⟩ 0 (List.mem_finRange 0)
    obtain ⟨top, -, -, h⟩ := (buckets_iff _ 0 (single.ofInt 10)).mp hbins _
      (List.mem_singleton_self (single.ofInt (-1)))
    exact not_inBins_small top h
  · rintro ⟨first, rest, hrun, -⟩
    exact not_spans_large ((compositeHisto_spec _).2 ⟨first, (reporthistos_eq_some.mp hrun).1⟩)

end CSE320.Grades
