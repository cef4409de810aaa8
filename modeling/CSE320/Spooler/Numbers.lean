import CSE320.Spooler.Schedule
import CSE320.Lib.Numeral

namespace CSE320.Spooler

open Lib (Byte ascii)

-- The job whose number is written in decimal digits.
def namedJob (arg : Word) (jobs : List Job) : Option Nat :=
  (Lib.decimal arg).bind fun (n : Nat) => jobs.findIdx? fun job => job.jobid.toInt = (n : Int)

-- The job that is named is aborted, and no other; without such a job there is an error.
def CancelRight (env : Env) (arg : Word) (s : State) : Prop :=
  ∃ s', command env (ascii "cancel") [arg] s = .ok s' ∧
    match namedJob arg s.jhead with
    | some j => s'.jhead = s.jhead.modify j abort
    | none => s'.jhead = s.jhead ∧ ∃ msg, s'.out = s.out ++ [.error msg]

-- No job has the value of the numeral modulo 2 ^ 32 unless the numeral names it.
def CancelFits (arg : Word) (jobs : List Job) : Prop :=
  ∀ value, Lib.numeral arg = some value → ∀ job ∈ jobs, 0 ≤ job.jobid.toInt →
    job.jobid.toInt = value % 2 ^ 32 →
    Lib.decimal arg = some job.jobid.toNat

theorem strtoiLoop_eq (num : BitVec 32) (str : Word) :
    strtoiLoop num str = Lib.scanDigits 10 num str := by
  induction str generalizing num with
  | nil => rfl
  | cons c str ih =>
      rw [strtoiLoop, Lib.scanDigits]
      by_cases hdigit : Lib.isDigit 10 c = true
      · rw [if_pos ((Lib.isDigit_ten c).mpr hdigit), if_pos hdigit, ih, Lib.digitVal_ten hdigit]
        rfl
      · rw [if_neg (mt (Lib.isDigit_ten c).mp hdigit), if_neg hdigit]

theorem strtoi_eq (str : Word) : strtoi str = Lib.scanNumeral str := by
  unfold strtoi
  simp only [strtoiLoop_eq]
  rfl

-- A job number that is not negative is the value of its bits.
theorem toInt_eq_iff {w : BitVec 32} {n : Nat} : w.toInt = n ↔ 0 ≤ w.toInt ∧ w.toNat = n := by
  have hlt := w.isLt
  rw [BitVec.toInt_eq_toNat_cond]
  split <;> omega

theorem command_cancel (env : Env) (arg : Word) (s : State) :
    command env (ascii "cancel") [arg] s = cancel arg s := by
  rfl

-- What the value of the argument does, by the job that it finds.
theorem cancel_spec {arg : Word} {w : BitVec 32} (hw : strtoi arg = w) (s : State) :
    (0 ≤ w.toInt → ∀ j, searchJobid s.jhead w = some j → ∃ s', cancel arg s = .ok s' ∧
      s'.jhead = s.jhead.modify j abort ∧ ∃ job, s'.out = s.out ++ [.jobStatus job]) ∧
    ((0 ≤ w.toInt → searchJobid s.jhead w = none) →
      ∃ s', cancel arg s = .ok s' ∧ s'.jhead = s.jhead ∧
      ∃ msg, s'.out = s.out ++ [.error msg]) := by
  unfold cancel onJob
  rw [hw]
  refine ⟨fun hpos j hfound => ?_, fun hnone => ?_⟩
  · have hlt : j < s.jhead.length := (List.findIdx?_eq_some_iff_getElem.mp hfound).1
    have hjob : (s.jhead.modify j abort)[j]? = some (abort (s.jhead.get ⟨j, hlt⟩)) := by
      rw [List.getElem?_modify_eq, List.getElem?_eq_getElem hlt]
      rfl
    have hchange : changeJobStatus j .aborted s =
        printJobStatus j { s with jhead := s.jhead.modify j abort } := rfl
    simp only [ge_iff_le, if_pos hpos, hfound, List.getElem?_eq_getElem hlt, hchange,
      printJobStatus, hjob]
    exact ⟨_, rfl, rfl, _, rfl⟩
  · by_cases hpos : 0 ≤ w.toInt
    · simp only [ge_iff_le, if_pos hpos, hnone hpos]
      exact ⟨_, rfl, rfl, _, rfl⟩
    · simp only [ge_iff_le, if_neg hpos]
      exact ⟨_, rfl, rfl, _, rfl⟩

theorem scanNumeral_toNat {arg : Word} {value : Int} (h : Lib.numeral arg = some value) :
    ((Lib.scanNumeral arg).toNat : Int) = value % 2 ^ 32 := by
  rw [Lib.scanNumeral_eq, h, BitVec.toNat_ofInt]
  exact Int.toNat_of_nonneg (Int.emod_nonneg _ (by decide))

theorem scanNumeral_eq_neg_one {arg : Word} (h : Lib.numeral arg = none) :
    (Lib.scanNumeral arg).toInt < 0 := by
  rw [Lib.scanNumeral_eq, h]
  decide

-- The search for the value of a decimal number.
theorem searchJobid_eq {w : BitVec 32} {n : Nat} (hpos : 0 ≤ w.toInt) (hn : w.toNat = n)
    (jobs : List Job) :
    searchJobid jobs w = jobs.findIdx? fun job => job.jobid.toInt = (n : Int) := by
  have hw : w.toInt = n := toInt_eq_iff.mpr ⟨hpos, hn⟩
  unfold searchJobid
  congr 1
  funext job
  rw [decide_eq_decide, ← hw, BitVec.toInt_inj]

-- A job that is named is found.
theorem searchJobid_of_named {arg : Word} {jobs : List Job} {j : Nat}
    (h : namedJob arg jobs = some j) :
    0 ≤ (Lib.scanNumeral arg).toInt ∧ searchJobid jobs (Lib.scanNumeral arg) = some j ∧
      Lib.decimal arg = some (Lib.scanNumeral arg).toNat := by
  obtain ⟨n, hdecimal, hfind⟩ := Option.bind_eq_some_iff.mp h
  obtain ⟨hlt, hid, -⟩ := List.findIdx?_eq_some_iff_getElem.mp hfind
  have hbound := BitVec.toInt_lt (x := jobs[j].jobid)
  have hvalue := Lib.scanNumeral_of_digits (Lib.decimal_eq_some.mp hdecimal).2
  simp only [decide_eq_true_eq] at hid
  have hn : (Lib.scanNumeral arg).toNat = n := by
    rw [hvalue, Nat.mod_eq_of_lt (by omega)]
  have hpos : 0 ≤ (Lib.scanNumeral arg).toInt := by
    rw [BitVec.toInt_eq_toNat_cond, hn]
    split <;> omega
  refine ⟨hpos, ?_, ?_⟩
  · rw [searchJobid_eq hpos hn, hfind]
  · rw [hdecimal, hn]

-- cancel takes the right job exactly when no job has the value of a wrong numeral.
theorem cancelRight_iff (env : Env) (arg : Word) (s : State) :
    CancelRight env arg s ↔ CancelFits arg s.jhead := by
  obtain ⟨hcancel, herror⟩ := cancel_spec (strtoi_eq arg) s
  unfold CancelRight
  rw [command_cancel]
  by_cases hfound : 0 ≤ (Lib.scanNumeral arg).toInt ∧
    (searchJobid s.jhead (Lib.scanNumeral arg)).isSome = true
  · obtain ⟨hpos, hsome⟩ := hfound
    obtain ⟨j, hj⟩ := Option.isSome_iff_exists.mp hsome
    obtain ⟨s', hrun, hjobs, job, hout⟩ := hcancel hpos j hj
    constructor
    · rintro ⟨s'', hrun', hright⟩
      obtain rfl : s' = s'' := Except.ok.inj (hrun.symm.trans hrun')
      cases hnamed : namedJob arg s.jhead with
      | none =>
          rw [hnamed] at hright
          obtain ⟨-, msg, hmsg⟩ := hright
          have hline := List.append_cancel_left (hout.symm.trans hmsg)
          cases hline
      | some j' =>
          obtain ⟨-, -, hdecimal⟩ := searchJobid_of_named hnamed
          intro value hvalue job _ hid hmod
          rw [← scanNumeral_toNat hvalue, toInt_eq_iff] at hmod
          rw [hdecimal, hmod.2]
    · intro hfits
      obtain ⟨hlt, hid, -⟩ := List.findIdx?_eq_some_iff_getElem.mp hj
      simp only [decide_eq_true_eq] at hid
      cases hvalue : Lib.numeral arg with
      | none => exact absurd hpos (Int.not_le.mpr (scanNumeral_eq_neg_one hvalue))
      | some value =>
          have hdecimal := hfits value hvalue s.jhead[j] (List.getElem_mem hlt)
            (by rw [hid]; exact hpos) (by
            rw [← scanNumeral_toNat hvalue, toInt_eq_iff, hid]
            exact ⟨hpos, rfl⟩)
          rw [hid] at hdecimal
          have hnamed : namedJob arg s.jhead = some j := by
            rw [namedJob, hdecimal, Option.bind_some, ← searchJobid_eq hpos rfl, hj]
          exact ⟨s', hrun, by rw [hnamed]; exact hjobs⟩
  · obtain ⟨s', hrun, hjobs, hmsg⟩ := herror fun hpos => by
      rcases hsearch : searchJobid s.jhead (Lib.scanNumeral arg) with _ | j
      · rfl
      · exact absurd ⟨hpos, by rw [hsearch]; rfl⟩ hfound
    refine iff_of_true ⟨s', hrun, ?_⟩ ?_
    · cases hnamed : namedJob arg s.jhead with
      | none => exact ⟨hjobs, hmsg⟩
      | some j =>
          obtain ⟨hpos, hsearch, -⟩ := searchJobid_of_named hnamed
          exact absurd ⟨hpos, by rw [hsearch]; rfl⟩ hfound
    · intro value hvalue job hjob hid hmod
      rw [← scanNumeral_toNat hvalue, toInt_eq_iff] at hmod
      have hsame : job.jobid = Lib.scanNumeral arg := BitVec.eq_of_toNat_eq hmod.2
      refine absurd ⟨hsame ▸ hid, ?_⟩ hfound
      rw [searchJobid, List.findIdx?_isSome, List.any_eq_true]
      exact ⟨job, hjob, decide_eq_true hsame⟩

-- The job 0 is aborted for a minus alone, and for a numeral of 2 ^ 32.
theorem not_cancelRight :
    let s := (addJob (ascii "a.pdf") (ascii "pdf") 1 State.start).2
    let env : Env := ⟨fun _ => .parent, fun _ => true, fun _ => true, fun _ => true⟩
    (∃ s', command env (ascii "cancel") [ascii "-"] s = .ok s' ∧
      s'.jhead = s.jhead.modify 0 abort) ∧
      ¬CancelRight env (ascii "-") s ∧ ¬CancelRight env (ascii "4294967296") s := by
  intro s env
  refine ⟨⟨_, rfl, by decide +kernel⟩, ?_, ?_⟩
  · rintro ⟨s', hrun, hright⟩
    obtain rfl := Except.ok.inj hrun
    exact absurd hright.1 (by decide +kernel)
  · rintro ⟨s', hrun, hright⟩
    obtain rfl := Except.ok.inj hrun
    exact absurd hright.1 (by decide +kernel)

end CSE320.Spooler
