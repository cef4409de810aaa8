import CSE320.Grades.Tables
import Mathlib.Algebra.BigOperators.Group.List.Basic
import Mathlib.Data.List.OfFn

namespace CSE320.Grades

variable {F : Type}

-- The entries that a table has counted for the scores of a kind.
def countedFor (kind : F → Bool) (freqs : List (Freqs F)) : Nat :=
  (freqs.map fun f => if kind f.score then f.count else 0).sum

def increasing [LT F] (freqs : List (Freqs F)) : Prop :=
  freqs.Pairwise fun f f' => f.score < f'.score

-- The buckets of a table count the grades of a list.
structure Counts [BEq F] [LT F] [DecidableLT F] [LE F] [DecidableLE F] (grades : List F)
    (p : Sample F) : Prop where
  increasing : increasing p.freqs
  count : ∀ f ∈ p.freqs, f.count = grades.count f.score
  numless : ∀ f ∈ p.freqs, f.numless = grades.countP (· < f.score)
  numlesseq : ∀ f ∈ p.freqs, f.numlesseq = grades.countP (· ≤ f.score)
  total : (p.freqs.map Freqs.count).sum = p.tallied
  tallied : p.tallied = grades.length

section

variable (kind : F → Bool) (sum : Nat) (f : Freqs F) (freqs : List (Freqs F))

@[simp] theorem countedFor_nil : countedFor kind [] = 0 := rfl

@[simp] theorem countedFor_cons :
    countedFor kind (f :: freqs) = (if kind f.score then f.count else 0) +
      countedFor kind freqs := by
  rw [countedFor, List.map_cons, List.sum_cons]
  rfl

theorem countedFor_all : countedFor (fun _ => true) freqs = (freqs.map Freqs.count).sum := rfl

theorem countedFor_eq_zero {kind : F → Bool} {freqs : List (Freqs F)}
    (h : ∀ f ∈ freqs, kind f.score = false) : countedFor kind freqs = 0 := by
  induction freqs with
  | nil => rfl
  | cons f rest ih =>
      rw [countedFor_cons, h f List.mem_cons_self, ih fun x hx => h x (List.mem_cons_of_mem _ hx)]
      rfl

theorem quantiles_scores : (quantiles sum freqs).map Freqs.score = freqs.map Freqs.score := by
  induction freqs generalizing sum with
  | nil => rfl
  | cons f rest ih => exact congrArg (f.score :: ·) (ih _)

theorem quantiles_counts : (quantiles sum freqs).map Freqs.count = freqs.map Freqs.count := by
  induction freqs generalizing sum with
  | nil => rfl
  | cons f rest ih => exact congrArg (f.count :: ·) (ih _)

section

variable [BEq F] [LT F] [DecidableLT F]

-- A table has no other scores than those that it has counted.
theorem score_of_mem_countScore {g : F} {f : Freqs F} {freqs : List (Freqs F)}
    (h : f ∈ countScore g freqs) : f.score = g ∨ ∃ f' ∈ freqs, f'.score = f.score := by
  induction freqs with
  | nil =>
      obtain rfl := List.mem_singleton.mp h
      exact Or.inl rfl
  | cons f' rest ih =>
      rw [countScore] at h
      split at h
      · rcases List.mem_cons.mp h with rfl | h
        · exact Or.inr ⟨f', List.mem_cons_self, rfl⟩
        · exact Or.inr ⟨f, List.mem_cons_of_mem _ h, rfl⟩
      · split at h
        · rcases List.mem_cons.mp h with rfl | h
          · exact Or.inl rfl
          · exact Or.inr ⟨f, h, rfl⟩
        · rcases List.mem_cons.mp h with rfl | h
          · exact Or.inr ⟨f, List.mem_cons_self, rfl⟩
          · rcases ih h with h | ⟨x, hx, hscore⟩
            · exact Or.inl h
            · exact Or.inr ⟨x, List.mem_cons_of_mem _ hx, hscore⟩

theorem countScore_total (g : F) :
    ((countScore g freqs).map Freqs.count).sum = (freqs.map Freqs.count).sum + 1 := by
  induction freqs with
  | nil => rfl
  | cons f rest ih =>
      rw [countScore]
      split
      · simp only [List.map_cons, List.sum_cons]
        omega
      · split
        · simp only [List.map_cons, List.sum_cons]
          omega
        · simp only [List.map_cons, List.sum_cons, ih]
          omega

end

theorem increasing_iff [LT F] : increasing freqs ↔ (freqs.map Freqs.score).Pairwise (· < ·) :=
  List.pairwise_map.symm

end

section

variable {α : Type} [LinearOrder α] {grades : List α} {freqs : List (Freqs α)} {g : α}

-- A table has a bucket for each grade of a list, and counts it.
structure Tabulates (grades : List α) (p : Sample α) : Prop extends Counts grades p where
  found : ∀ g ∈ grades, ∃ f ∈ p.freqs, f.score = g

-- Wherever the entry is counted, it is counted once, and for its own score.
theorem countedFor_countScore (kind : α → Bool) (g : α) (freqs : List (Freqs α)) :
    countedFor kind (countScore g freqs) = countedFor kind freqs + if kind g then 1 else 0 := by
  induction freqs with
  | nil => simp [countScore]
  | cons f rest ih =>
      rw [countScore]
      split
      · rename_i hsame
        simp only [countedFor_cons, eq_of_beq hsame]
        split <;> omega
      · split
        · simp only [countedFor_cons]
          omega
        · rw [countedFor_cons, ih, countedFor_cons]
          omega

-- The four places where an entry can go.
theorem increasing_countScore (h : increasing freqs) : increasing (countScore g freqs) := by
  induction freqs with
  | nil => exact List.pairwise_singleton _ _
  | cons f rest ih =>
      obtain ⟨hfirst, hrest⟩ := List.pairwise_cons.mp h
      rw [countScore]
      split
      · exact List.pairwise_cons.mpr ⟨hfirst, hrest⟩
      · rename_i hne
        split
        · rename_i hgreater
          refine List.pairwise_cons.mpr ⟨fun f' hf' => ?_, h⟩
          rcases List.mem_cons.mp hf' with rfl | hf'
          · exact hgreater
          · exact lt_trans hgreater (hfirst f' hf')
        · rename_i hnot
          refine List.pairwise_cons.mpr ⟨fun f' hf' => ?_, ih hrest⟩
          rcases score_of_mem_countScore hf' with hscore | ⟨x, hx, hscore⟩
          · rw [hscore]
            exact lt_of_le_of_ne (not_lt.mp hnot) (by simpa using hne)
          · rw [← hscore]
            exact hfirst x hx

-- The table and the number of entries behind the grades of a list.
theorem tally_fold (grades : List α) (p : Sample α) (hp : increasing p.freqs) :
    increasing (grades.foldl (fun p g => tally g p) p).freqs ∧
      (∀ kind, countedFor kind (grades.foldl (fun p g => tally g p) p).freqs =
        countedFor kind p.freqs + grades.countP kind) ∧
      (grades.foldl (fun p g => tally g p) p).tallied = p.tallied + grades.length := by
  induction grades generalizing p with
  | nil => exact ⟨hp, fun _ => rfl, rfl⟩
  | cons g rest ih =>
      obtain ⟨hincreasing, hcount, htallied⟩ := ih (tally g p) (increasing_countScore hp)
      refine ⟨hincreasing, fun kind => ?_, ?_⟩
      · rw [List.foldl_cons, hcount]
        rw [show (tally g p).freqs = countScore g p.freqs from rfl, countedFor_countScore,
          List.countP_cons]
        omega
      · rw [List.foldl_cons, htallied, List.length_cons]
        rw [show (tally g p).tallied = p.tallied + 1 from rfl]
        omega

-- The scores in front of a bucket are the smaller ones.
theorem mem_quantiles (h : increasing freqs) {sum : Nat} {f : Freqs α}
    (hf : f ∈ quantiles sum freqs) :
    f.count = countedFor (· = f.score) freqs ∧ f.numless = sum + countedFor (· < f.score) freqs ∧
      f.numlesseq = sum + countedFor (· ≤ f.score) freqs := by
  induction freqs generalizing sum with
  | nil => cases hf
  | cons first rest ih =>
      obtain ⟨hfirst, hrest⟩ := List.pairwise_cons.mp h
      rcases List.mem_cons.mp hf with rfl | hf
      · -- nothing behind it is as small
        have hnone (kind : α → Bool) (hkind : ∀ x, first.score < x → kind x = false) :
            countedFor kind rest = 0 :=
          countedFor_eq_zero fun x hx => hkind _ (hfirst x hx)
        simp only [countedFor_cons]
        rw [hnone _ fun x hx => by simpa using hx.ne', hnone _ fun x hx => by simpa using hx.le,
          hnone _ fun x hx => by simpa using hx]
        simp
      · obtain ⟨hcount, hnumless, hnumlesseq⟩ := ih hrest hf
        have hlt : first.score < f.score := by
          have hscore := List.mem_map_of_mem (f := Freqs.score) hf
          rw [quantiles_scores] at hscore
          obtain ⟨x, hx, heq⟩ := List.mem_map.mp hscore
          rw [← heq]
          exact hfirst x hx
        refine ⟨?_, ?_, ?_⟩
        · simp [hcount, hlt.ne]
        · simp only [countedFor_cons, hnumless, decide_eq_true hlt, if_true]
          omega
        · simp only [countedFor_cons, hnumlesseq, decide_eq_true hlt.le, if_true]
          omega

-- The tables do what they are for.
theorem tabulates_fold [Zero α] (grades : List α) :
    Tabulates grades (fillQuantiles (grades.foldl (fun p g => tally g p) newstats)) := by
  obtain ⟨hincreasing, hcount, htallied⟩ := tally_fold grades newstats List.Pairwise.nil
  have hcount' (kind : α → Bool) :
      countedFor kind (grades.foldl (fun p g => tally g p) newstats).freqs =
        grades.countP kind := by
    rw [hcount]
    exact Nat.zero_add _
  have htallied' : (grades.foldl (fun p g => tally g p) newstats).tallied = grades.length :=
    htallied.trans (Nat.zero_add _)
  refine ⟨⟨?_, ?_, ?_, ?_, ?_, htallied'⟩, ?_⟩
  · rw [increasing_iff, fillQuantiles, quantiles_scores]
    exact (increasing_iff _).mp hincreasing
  · intro f hf
    rw [(mem_quantiles hincreasing hf).1, hcount', List.count]
    exact congrArg (grades.countP ·) (funext fun x => (beq_eq_decide x f.score).symm)
  · intro f hf
    rw [(mem_quantiles hincreasing hf).2.1, hcount', Nat.zero_add]
  · intro f hf
    rw [(mem_quantiles hincreasing hf).2.2, hcount', Nat.zero_add]
  · rw [fillQuantiles, quantiles_counts, ← countedFor_all, hcount']
    exact (congrFun List.countP_true grades).trans htallied'.symm
  · intro g hg
    by_contra hnone
    push Not at hnone
    have hzero : countedFor (· = g) (grades.foldl (fun p g => tally g p) newstats).freqs = 0 :=
      countedFor_eq_zero fun f hf => by
        have hscore := List.mem_map_of_mem (f := Freqs.score) hf
        rw [← quantiles_scores 0] at hscore
        obtain ⟨x, hx, heq⟩ := List.mem_map.mp hscore
        rw [← heq]
        exact decide_eq_false (hnone x hx)
    rw [hcount', List.countP_eq_zero] at hzero
    exact hzero g hg (decide_eq_true rfl)

-- The bounds and the moments are not part of the table.
theorem Tabulates.of_table {p q : Sample α} (h : Tabulates grades p) (hfreqs : q.freqs = p.freqs)
    (htallied : q.tallied = p.tallied) : Tabulates grades q := by
  obtain ⟨⟨hincreasing, hcount, hnumless, hnumlesseq, htotal, hlength⟩, hfound⟩ := h
  rw [← hfreqs] at hincreasing hcount hnumless hnumlesseq hfound htotal
  rw [← htallied] at htotal hlength
  exact ⟨⟨hincreasing, hcount, hnumless, hnumlesseq, htotal, hlength⟩, hfound⟩

theorem Tabulates.of_core [Zero α] {p q : Sample α} (h : Tabulates grades p)
    (hcore : core q = p) : Tabulates grades q := by
  rw [← hcore] at h
  exact h.of_table rfl rfl

end

end CSE320.Grades
