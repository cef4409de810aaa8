import CSE320.Grades.Frequency
import CSE320.Lib.Run
import Mathlib.Algebra.Order.Field.Rat
import Mathlib.Tactic.FieldSimp
import Mathlib.Tactic.Linarith
import Mathlib.Tactic.Positivity

namespace CSE320.Grades

-- What must not happen in a computation.
inductive Fault where
  | nullPointer
  | divisionByZero
deriving DecidableEq

def divide (x y : ℚ) : Except Fault ℚ := if y = 0 then .error .divisionByZero else .ok (x / y)

-- The previous and the current quantile and score of the loop.
structure Knots where
  pq : ℚ
  nq : ℚ
  ps : ℚ
  ns : ℚ

-- The loop of interpolatequantile. It stops in front of the last entry.
def findKnots (n : Nat) (q : ℚ) : List (Freqs ℚ) → Knots → Except Fault (List (Freqs ℚ) × Knots)
  | f :: next :: rest, k => do
    let nq ← divide (f.numless * 100) n
    let ns := f.score
    if k.pq ≤ q ∧ q < nq then .ok (f :: next :: rest, { k with nq, ns })
    else findKnots n q (next :: rest) { pq := nq, nq, ps := ns, ns }
  | fp, k => .ok (fp, k)

-- The rest of interpolatequantile, where the loop has been left at an entry.
def atKnots (q : ℚ) (fp : List (Freqs ℚ)) (k : Knots) : Except Fault ℚ :=
  match fp with
  | [] => .error .nullPointer
  | [f] => .ok f.score
  | _ :: _ :: _ =>
    let qdiff := k.nq - k.pq
    let sdiff := k.ns - k.ps
    if qdiff = 0 then .ok k.ps
    else do
      let slope ← divide sdiff qdiff
      .ok (k.ps + slope * (q - k.pq))

def interpolatequantile (fp : List (Freqs ℚ)) (n : Nat) (q : ℚ) : Except Fault ℚ :=
  match fp with
  | [] => .ok 0
  | f :: rest => do
    let (fp, k) ← findKnots n q (f :: rest) { pq := 0, nq := 0, ps := f.score, ns := f.score }
    atKnots q fp k

-- The numbers of smaller scores are the counts in front, from a sum on.
def running : Nat → List (Freqs ℚ) → Prop
  | _, [] => True
  | sum, f :: rest => f.numless = sum ∧ running (sum + f.count) rest

-- A table of n scores.
structure WellFormed (freqs : List (Freqs ℚ)) (n : Nat) : Prop where
  increasing : increasing freqs
  counts : ∀ f ∈ freqs, 0 < f.count
  running : running 0 freqs
  total : (freqs.map Freqs.count).sum = n

-- The percentile of an entry.
def percent (n : Nat) (f : Freqs ℚ) : ℚ := f.numless * 100 / n

-- The value from an entry on, behind a knot at pq with the score ps.
def valueFrom (n : Nat) (q : ℚ) : ℚ → ℚ → List (Freqs ℚ) → ℚ
  | pq, ps, f :: next :: rest =>
    if pq ≤ q ∧ q < percent n f then ps + (f.score - ps) / (percent n f - pq) * (q - pq)
    else valueFrom n q (percent n f) f.score (next :: rest)
  | _, _, [f] => f.score
  | _, ps, [] => ps

variable {n : Nat} {q q' : ℚ} {f next : Freqs ℚ} {rest freqs : List (Freqs ℚ)}

-- The loop and what follows it, in terms of the entries that are left. No difference of
-- two quantiles is zero where the loop has been left.
theorem findKnots_value (hn : n ≠ 0) (freqs : List (Freqs ℚ)) (hne : freqs ≠ []) (k : Knots) :
    (findKnots n q freqs k >>= fun (fp, k) => atKnots q fp k) =
      .ok (valueFrom n q k.pq k.ps freqs) := by
  have hn' : (n : ℚ) ≠ 0 := by exact_mod_cast hn
  have hdivide (f : Freqs ℚ) : divide (f.numless * 100) n = .ok (percent n f) := if_neg hn'
  induction freqs generalizing k with
  | nil => exact absurd rfl hne
  | cons f rest ih =>
      cases rest with
      | nil => rfl
      | cons next rest =>
          rw [findKnots, hdivide, Lib.ok_bind, valueFrom]
          by_cases hbreak : k.pq ≤ q ∧ q < percent n f
          · have hdiff : percent n f - k.pq ≠ 0 := by
              have hlt := hbreak.1.trans_lt hbreak.2
              exact (sub_pos.mpr hlt).ne'
            rw [if_pos hbreak, if_pos hbreak, Lib.ok_bind]
            simp only [atKnots, if_neg hdiff, divide, Lib.ok_bind]
          · rw [if_neg hbreak, if_neg hbreak]
            exact ih (by simp) _

theorem interpolatequantile_eq (hn : n ≠ 0) (f : Freqs ℚ) (rest : List (Freqs ℚ)) (q : ℚ) :
    interpolatequantile (f :: rest) n q = .ok (valueFrom n q 0 f.score (f :: rest)) :=
  findKnots_value hn (f :: rest) (by simp) _

-- The percentiles grow along a table.
theorem running_lt {sum : Nat} (hrunning : running sum (f :: rest))
    (hcounts : ∀ x ∈ f :: rest, 0 < x.count) {x : Freqs ℚ} (hx : x ∈ rest) :
    f.numless < x.numless := by
  induction rest generalizing f sum with
  | nil => cases hx
  | cons next rest ih =>
      obtain ⟨hfirst, hrest⟩ := List.forall_mem_cons.mp hcounts
      have hnext : f.numless < next.numless := by
        rw [hrunning.1, hrunning.2.1]
        omega
      rcases List.mem_cons.mp hx with rfl | hx
      · exact hnext
      · exact hnext.trans (ih hrunning.2 hrest hx)

theorem percent_lt (hn : n ≠ 0) (h : f.numless < next.numless) : percent n f < percent n next := by
  have hpos : (0 : ℚ) < n := by exact_mod_cast Nat.pos_of_ne_zero hn
  have hlt : (f.numless : ℚ) < next.numless := by exact_mod_cast h
  rw [percent, percent]
  gcongr

-- A part of a segment does not rise over the whole segment.
theorem segment_le {pq nq ps ns : ℚ} (hps : ps ≤ ns) (hq : pq ≤ q) (hnq : q < nq) :
    0 ≤ (ns - ps) / (nq - pq) * (q - pq) ∧ (ns - ps) / (nq - pq) * (q - pq) ≤ ns - ps := by
  have hdiff : 0 < nq - pq := sub_pos.mpr (hq.trans_lt hnq)
  constructor
  · exact mul_nonneg (div_nonneg (sub_nonneg.mpr hps) hdiff.le) (sub_nonneg.mpr hq)
  · rw [div_mul_eq_mul_div, div_le_iff₀ hdiff]
    apply mul_le_mul_of_nonneg_left _ (sub_nonneg.mpr hps)
    linarith

-- Behind a knot the value is between its score and the last one.
theorem valueFrom_bounds {pq ps : ℚ} (hincreasing : increasing (f :: rest)) (hps : ps ≤ f.score)
    (hq : pq ≤ q) :
    ps ≤ valueFrom n q pq ps (f :: rest) ∧
      valueFrom n q pq ps (f :: rest) ≤ ((f :: rest).getLast (List.cons_ne_nil f rest)).score := by
  induction rest generalizing f pq ps with
  | nil => exact ⟨hps, le_rfl⟩
  | cons next rest ih =>
      obtain ⟨hfirst, hrest⟩ := List.pairwise_cons.mp hincreasing
      have hnext : f.score < next.score := hfirst next List.mem_cons_self
      rw [valueFrom, List.getLast_cons (List.cons_ne_nil next rest)]
      by_cases hbreak : pq ≤ q ∧ q < percent n f
      · have hlast : f.score < ((next :: rest).getLast (List.cons_ne_nil next rest)).score :=
          hfirst _ (List.getLast_mem _)
        obtain ⟨hnonneg, hshare⟩ := segment_le hps hbreak.1 hbreak.2
        rw [if_pos hbreak]
        exact ⟨by linarith, by linarith⟩
      · have hge : percent n f ≤ q := not_lt.mp fun hlt => hbreak ⟨hq, hlt⟩
        obtain ⟨hlow, hhigh⟩ := ih hrest hnext.le hge
        rw [if_neg hbreak]
        exact ⟨hps.trans hlow, hhigh⟩

-- The value grows with the quantile, on one segment and from one to the next.
theorem valueFrom_mono {pq ps : ℚ} (hincreasing : increasing (f :: rest)) (hps : ps ≤ f.score)
    (hq : pq ≤ q) (hle : q ≤ q') : valueFrom n q pq ps (f :: rest) ≤ valueFrom n q' pq ps
    (f :: rest) := by
  induction rest generalizing f pq ps with
  | nil => exact le_rfl
  | cons next rest ih =>
      obtain ⟨hfirst, hrest⟩ := List.pairwise_cons.mp hincreasing
      have hnext : f.score < next.score := hfirst next List.mem_cons_self
      rw [valueFrom, valueFrom]
      by_cases hsecond : q' < percent n f
      · have hdiff : 0 < percent n f - pq := sub_pos.mpr ((hq.trans hle).trans_lt hsecond)
        have hslope : 0 ≤ (f.score - ps) / (percent n f - pq) :=
          div_nonneg (sub_nonneg.mpr hps) hdiff.le
        have hboth : pq ≤ q' ∧ q' < percent n f := ⟨hq.trans hle, hsecond⟩
        have hfirst' : pq ≤ q ∧ q < percent n f := ⟨hq, hle.trans_lt hsecond⟩
        rw [if_pos hboth, if_pos hfirst']
        gcongr
      · have hnot : ¬(pq ≤ q' ∧ q' < percent n f) := fun h => hsecond h.2
        rw [if_neg hnot]
        by_cases hbreak : pq ≤ q ∧ q < percent n f
        · have hbehind := (valueFrom_bounds (n := n) hrest hnext.le (not_lt.mp hsecond)).1
          obtain ⟨-, hshare⟩ := segment_le hps hbreak.1 hbreak.2
          rw [if_pos hbreak]
          linarith
        · rw [if_neg hbreak]
          exact ih hrest hnext.le (not_lt.mp fun hlt => hbreak ⟨hq, hlt⟩)

theorem WellFormed.count_ne_zero (h : WellFormed freqs n) (hne : freqs ≠ []) : n ≠ 0 := by
  obtain ⟨f, rest, rfl⟩ := List.exists_cons_of_ne_nil hne
  have hpos := h.counts f List.mem_cons_self
  have htotal := h.total
  rw [List.map_cons, List.sum_cons] at htotal
  omega

-- No fault, and the values grow from the lowest to the highest score.
theorem interpolatequantile_monotone (h : WellFormed freqs n) (hne : freqs ≠ []) (hq : 0 ≤ q)
    (hle : q ≤ q') :
    ∃ s s', interpolatequantile freqs n q = .ok s ∧ interpolatequantile freqs n q' = .ok s' ∧
      (freqs.head hne).score ≤ s ∧ s ≤ s' ∧ s' ≤ (freqs.getLast hne).score := by
  have hn := h.count_ne_zero hne
  obtain ⟨f, rest, rfl⟩ := List.exists_cons_of_ne_nil hne
  refine ⟨_, _, interpolatequantile_eq hn f rest q, interpolatequantile_eq hn f rest q', ?_, ?_, ?_⟩
  · exact (valueFrom_bounds h.increasing le_rfl hq).1
  · exact valueFrom_mono h.increasing le_rfl hq hle
  · exact (valueFrom_bounds h.increasing le_rfl (hq.trans hle)).2

-- At a knot the next segment starts, unless the next entry is the last one.
theorem valueFrom_start {ps : ℚ} (hlt : percent n f < percent n next) :
    valueFrom n (percent n f) (percent n f) ps (next :: rest) = if rest = [] then next.score
      else ps := by
  cases rest with
  | nil => rfl
  | cons third rest =>
      rw [valueFrom, if_pos ⟨le_rfl, hlt⟩, sub_self, mul_zero, add_zero,
        if_neg (List.cons_ne_nil third rest)]

-- The percentile of an entry leads back to its score, but for the last entry but one.
theorem valueFrom_knot (hn : n ≠ 0) {sum : Nat} {pq ps : ℚ} (hcounts : ∀ x ∈ f :: rest, 0 < x.count)
    (hrunning : running sum (f :: rest)) (i : Nat) (hi : i < (f :: rest).length) :
    valueFrom n (percent n (f :: rest)[i]) pq ps (f :: rest) =
      if i + 2 = (f :: rest).length then ((f :: rest).getLast (List.cons_ne_nil f rest)).score
      else (f :: rest)[i].score := by
  induction rest generalizing f sum pq ps i with
  | nil =>
      obtain rfl : i = 0 := by simpa using hi
      rfl
  | cons next rest ih =>
      have hlater {x : Freqs ℚ} (hx : x ∈ next :: rest) : percent n f < percent n x :=
        percent_lt hn (running_lt hrunning hcounts hx)
      cases i with
      | zero =>
          have hnot : ¬(pq ≤ percent n f ∧ percent n f < percent n f) := fun h => lt_irrefl _ h.2
          rw [List.getElem_cons_zero, valueFrom, if_neg hnot,
            valueFrom_start (hlater List.mem_cons_self)]
          cases rest with
          | nil => rfl
          | cons third rest => simp
      | succ j =>
          have hj : j < (next :: rest).length := by simpa using hi
          have hge := hlater (List.getElem_mem hj)
          have hnot : ¬(pq ≤ percent n (next :: rest)[j] ∧
              percent n (next :: rest)[j] < percent n f) :=
            fun h => lt_asymm h.2 hge
          rw [List.getElem_cons_succ, valueFrom, if_neg hnot,
            ih (fun x hx => hcounts x (List.mem_cons_of_mem f hx)) hrunning.2 j hj,
            List.getLast_cons (List.cons_ne_nil next rest)]
          by_cases hlast : j + 2 = (next :: rest).length
          · rw [if_pos hlast, if_pos (by rw [List.length_cons, ← hlast])]
          · rw [if_neg hlast, if_neg fun h => hlast (by simpa using h)]

-- The interpolation goes through every entry but the last one but one, for which it
-- gives the last score.
theorem interpolatequantile_knot_iff (h : WellFormed freqs n) (i : Nat) (hi : i < freqs.length) :
    interpolatequantile freqs n (100 * freqs[i].numless / n) = .ok freqs[i].score ↔
      i + 2 ≠ freqs.length := by
  have hne : freqs ≠ [] := List.ne_nil_of_length_pos (Nat.zero_lt_of_lt hi)
  have hn := h.count_ne_zero hne
  have hpercent : (100 * freqs[i].numless / n : ℚ) = percent n freqs[i] := by rw [percent, mul_comm]
  have hincreasing := h.increasing
  rw [hpercent]
  obtain ⟨f, rest, rfl⟩ := List.exists_cons_of_ne_nil hne
  rw [interpolatequantile_eq hn, valueFrom_knot hn h.counts h.running i hi, Except.ok.injEq]
  by_cases hlast : i + 2 = (f :: rest).length
  · have hlt : (f :: rest)[i].score < ((f :: rest).getLast hne).score := by
      rw [List.getLast_eq_getElem]
      exact List.pairwise_iff_getElem.mp hincreasing i _ hi (by omega) (by omega)
    rw [if_pos hlast]
    exact ⟨fun heq => absurd heq hlt.ne', fun hnot => absurd hlast hnot⟩
  · rw [if_neg hlast]
    exact ⟨fun _ => hlast, fun _ => rfl⟩

-- The tables that the statistics are made with are well formed.
theorem quantiles_running (sum : Nat) (freqs : List (Freqs ℚ)) :
    running sum (quantiles sum freqs) := by
  induction freqs generalizing sum with
  | nil => trivial
  | cons f rest ih => exact ⟨rfl, ih _⟩

theorem countScore_pos {g : ℚ} (h : ∀ f ∈ freqs, 0 < f.count) :
    ∀ f ∈ countScore g freqs, 0 < f.count := by
  induction freqs with
  | nil => simp [countScore]
  | cons f rest ih =>
      obtain ⟨hf, hrest⟩ := List.forall_mem_cons.mp h
      rw [countScore]
      split
      · exact List.forall_mem_cons.mpr ⟨Nat.succ_pos _, hrest⟩
      · split
        · exact List.forall_mem_cons.mpr ⟨Nat.one_pos, h⟩
        · exact List.forall_mem_cons.mpr ⟨hf, ih hrest⟩

theorem fillQuantiles_wellFormed (grades : List ℚ) :
    WellFormed (fillQuantiles (grades.foldl (fun p g => tally g p) newstats)).freqs
      grades.length := by
  have hpos (grades : List ℚ) (p : Sample ℚ) (hp : ∀ f ∈ p.freqs, 0 < f.count) :
      ∀ f ∈ (grades.foldl (fun p g => tally g p) p).freqs, 0 < f.count := by
    induction grades generalizing p with
    | nil => exact hp
    | cons g rest ih => exact ih (tally g p) (countScore_pos hp)
  have htabulates := tabulates_fold grades
  refine ⟨htabulates.increasing, fun f hf => ?_, quantiles_running 0 _,
    htabulates.total.trans htabulates.tallied⟩
  have hcount := List.mem_map_of_mem (f := Freqs.count) hf
  rw [fillQuantiles, quantiles_counts] at hcount
  obtain ⟨f', hf', heq⟩ := List.mem_map.mp hcount
  rw [← heq]
  exact hpos grades newstats (by simp [newstats]) f' hf'

-- Two scores, and the smaller one is tallied twice.
def twoScores : List (Freqs ℚ) := [⟨40, 2, 0, 2⟩, ⟨70, 1, 2, 3⟩]

theorem twoScores_wellFormed : WellFormed twoScores 3 := by
  refine ⟨by norm_num [increasing, twoScores], by simp [twoScores], ?_, rfl⟩
  exact ⟨rfl, rfl, trivial⟩

theorem interpolatequantile_monotone_two :
    ∃ s s', interpolatequantile twoScores 3 25 = .ok s ∧
      interpolatequantile twoScores 3 75 = .ok s' ∧
      (twoScores.head (by decide)).score ≤ s ∧ s ≤ s' ∧
        s' ≤ (twoScores.getLast (by decide)).score :=
  interpolatequantile_monotone twoScores_wellFormed (by decide) (by norm_num) (by norm_num)

theorem interpolatequantile_knot_two :
    interpolatequantile twoScores 3 (100 * (2 : Nat) / (3 : Nat)) = .ok 70 ↔
      1 + 2 ≠ twoScores.length :=
  interpolatequantile_knot_iff twoScores_wellFormed 1 (by decide)

theorem interpolatequantile_knot_not :
    WellFormed twoScores 3 ∧ interpolatequantile twoScores 3 (100 * (0 : Nat) / (3 : Nat)) ≠
      .ok 40 :=
  ⟨twoScores_wellFormed, by decide +kernel⟩

end CSE320.Grades
