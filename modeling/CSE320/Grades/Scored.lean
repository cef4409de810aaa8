import CSE320.Grades.Assigned
import Mathlib.Data.List.DropRight

namespace CSE320.Grades.File

open Lib

variable {F : Type} {nums : Numbers F} {rounds n : Nat} {words : List Text} {t rest : Text}
  {r : Reader}

-- A score is for the assignment at the same place. A code may have lost separators at
-- its start.
structure SameScore {n n' : Nat} (nums : Numbers F) (s : Score (Option F) n)
    (s' : Score (Option F) n') : Prop where
  asgt : s.asgt.val = s'.asgt.val
  grade : SameNumber nums s.grade s'.grade
  qnorm : SameNumber nums s.qnorm s'.qnorm
  lnorm : SameNumber nums s.lnorm s'.lnorm
  snorm : SameNumber nums s.snorm s'.snorm
  flag : s.flag = s'.flag
  subst : s.flag = .invalid → s.subst = s'.subst
  code : s.flag = .invalid → trim s.code = trim s'.code

def RereadableScore (s : Score (Option F) n) : Prop := s.flag = .invalid → s.subst ≠ .usenorm

def substword : Gsubst → Text
  | .useraw => ascii "USERAW"
  | .usenorm => ascii "USENORM"
  | .uselikeavg => ascii "USELIKEAVG"
  | .useclassavg => ascii "USECLASSAVG"

theorem isWord_substword (g : Gsubst) : IsWord False (substword g) := by
  cases g <;> exact isWord_keyword (by decide)

theorem checksubst_some {g : Gsubst} (h : Ahead t r) (hleads : Leads t (substword g) rest) :
    Runs (checksubst r) (some g) (At rest) := by
  rw [checksubst]
  cases g with
  | useraw => exact keyword_yes h hleads fun r' h' => ⟨r', rfl, h'⟩
  | usenorm =>
      refine keyword_no h hleads (by decide) fun r₁ h₁ => keyword_yes h₁ hleads fun r' h' =>
        ⟨r', rfl, h'⟩
  | uselikeavg =>
      refine keyword_no h hleads (by decide) fun r₁ h₁ =>
        keyword_no h₁ hleads (by decide) fun r₂ h₂ => ?_
      exact keyword_yes h₂ hleads fun r' h' => ⟨r', rfl, h'⟩
  | useclassavg =>
      refine keyword_no h hleads (by decide) fun r₁ h₁ =>
        keyword_no h₁ hleads (by decide) fun r₂ h₂ => ?_
      refine keyword_no h₂ hleads (by decide) fun r₃ h₃ => keyword_yes h₃ hleads fun r' h' =>
        ⟨r', rfl, h'⟩

theorem checksubst_number {x : F} (hnums : Lawful nums) (h : Ahead t r)
    (hleads : Leads t (nums.print x) rest) :
    Runs (checksubst r) none (Ahead t) := by
  rw [checksubst]
  refine keyword_no h hleads (hnums.ne_keyword x (by decide)) fun r₁ h₁ => ?_
  refine keyword_no h₁ hleads (hnums.ne_keyword x (by decide)) fun r₂ h₂ => ?_
  refine keyword_no h₂ hleads (hnums.ne_keyword x (by decide)) fun r₃ h₃ => ?_
  exact keyword_no h₃ hleads (hnums.ne_keyword x (by decide)) fun r' h' => ⟨r', rfl, h'⟩

theorem readvalue_run {x y : F} (hnums : Lawful nums) (h : Ahead t r)
    (hleads : Leads t (nums.print x) rest) (hy : nums.scan (nums.print x) = some y)
    (missing : String) : Runs (readvalue nums missing r) y (At rest) := by
  rw [readvalue]
  exact peek_number h hleads hnums hy fun r' h' => ⟨r', rfl, h'⟩

theorem trim_blank (t : Text) : trim (32 :: t) = trim t := List.dropWhile_cons_of_pos (by decide)

theorem trim_trim (t : Text) : trim (trim t) = trim t := List.dropWhile_idempotent _ _

-- A code is read back without the separators before it.
theorem readcode_line {code : Text} (hcode : IsLine code)
    (h : At (32 :: (code ++ newline :: t)) r) :
    Runs (readcode r) (trim code) (At (newline :: t)) := by
  have hprint : Printable ([32] ++ code) := .append (by decide) hcode.1
  have hrun := readcode_run (show At (([32] ++ code) ++ newline :: t) r from h) hprint
  rw [trim_append (by decide), if_pos (Nat.le_trans (length_trim_le code) hcode.2)] at hrun
  exact ⟨_, hrun, ⟨rfl, h.token, h.size, h.errors⟩⟩

-- What is written of a score behind the name of its assignment.
def gradetext (nums : Numbers F) (asgt : Assignment (Option F)) (s : Score (Option F) n) : Text :=
  if s.flag = .valid then ascii " " ++ printOption nums s.grade
    else writesubst nums asgt s ++ ascii " " ++ s.code

theorem isLine_usenorm {code : Text} (hcode : IsLine code) :
    Printable (ascii " USELIKEAVG" ++ 32 :: code) := by
  intro c hc
  rcases List.mem_append.mp hc with hc | hc
  · have hall : ∀ c ∈ ascii " USELIKEAVG", c ≠ newline ∧ c ≠ eof ∧ c ≠ 0 := by
      simp [ascii, newline, eof]
    exact hall c hc
  · rcases List.mem_cons.mp hc with rfl | hc
    · decide
    · exact hcode.1 c hc

section

variable {asgts asgts' : Vector (Assignment (Option F)) n} {s : Score (Option F) n}
  {asgt asgt' : Assignment (Option F)}

theorem checkrange_cases (nums : Numbers F) (asgt : Assignment (Option F)) (f : F) (r : Reader) :
    checkrange nums asgt f r = .ok ((), r) ∨ Spoils Clean (checkrange nums asgt f r) := by
  rw [checkrange]
  cases asgt.npolicy with
  | raw => exact Or.inl rfl
  | linear => exact Or.inl rfl
  | quantile =>
      by_cases hrange : (nums.lt f nums.zero || nums.lt nums.hundred f) = true
      · exact Or.inr (by rw [if_pos hrange]; exact spoils_error)
      · exact Or.inl (by rw [if_neg hrange]; rfl)
  | scale =>
      by_cases hrange : (nums.lt f nums.zero || asgt.scale.any (nums.lt · f)) = true
      · exact Or.inr (by rw [if_pos hrange]; exact spoils_error)
      · exact Or.inl (by rw [if_neg hrange]; rfl)

theorem readgrade_valid (hnums : Lawful nums) (hs : Graded asgts s) (hflag : s.flag = .valid)
    (h : At (gradetext nums asgt s ++ newline :: t) r) :
    Recovers Clean (RereadableScore s) (SameScore nums s)
      (readgrade nums asgt' (freshScore s.asgt) r)
      (At (newline :: t)) := by
  obtain ⟨g, hg⟩ := hs.grade (Or.inl hflag)
  obtain ⟨y, hy⟩ := hnums.scan g
  obtain ⟨hq, hl, hsn⟩ := hs.notNormalized (Or.inl hflag)
  have htext : gradetext nums asgt s ++ newline :: t = 32 :: (nums.print g ++ newline :: t) := by
    rw [gradetext, if_pos hflag, hg]
    rfl
  have hleads : Leads (gradetext nums asgt s ++ newline :: t) (nums.print g) (newline :: t) := by
    rw [htext]
    exact leads_word (hnums.isWord g) (endsWord_newline t)
  have hrun : Runs (readgrade nums asgt' (freshScore s.asgt) r)
      { freshScore s.asgt with flag := .valid, grade := some y } (At (newline :: t)) := by
    rw [readgrade]
    refine (checksubst_number hnums (Or.inl h) hleads).bind fun r₁ h₁ => ?_
    exact (readvalue_run hnums h₁ hleads hy _).bind fun r' h' => ⟨r', rfl, h'⟩
  refine Recovers.of_runs hrun ⟨fun _ hinvalid => ?_, fun _ => ?_⟩
  · rw [hflag] at hinvalid
    cases hinvalid
  · refine ⟨rfl, by rw [hg]; exact Or.inr hy, by rw [hq]; rfl, by rw [hl]; rfl,
      by rw [hsn]; rfl, hflag, ?_, ?_⟩
    · exact fun hinvalid => absurd (hflag.symm.trans hinvalid) (by decide)
    · exact fun hinvalid => absurd (hflag.symm.trans hinvalid) (by decide)

theorem readgrade_useraw (hnums : Lawful nums) (hs : Graded asgts s) (hflag : s.flag = .invalid)
    (hsubst : s.subst = .useraw) (h : At (gradetext nums asgt s ++ newline :: t) r) :
    Recovers Clean (RereadableScore s) (SameScore nums s)
      (readgrade nums asgt' (freshScore s.asgt) r) (At (newline :: t)) := by
  obtain ⟨g, hg⟩ := hs.grade (Or.inr hsubst)
  obtain ⟨y, hy⟩ := hnums.scan g
  obtain ⟨hq, hl, hsn⟩ := hs.notNormalized (Or.inr (by simp [hsubst]))
  have htext : gradetext nums asgt s ++ newline :: t =
      32 :: (substword .useraw ++ (32 :: (nums.print g ++ 32 :: (s.code ++ newline :: t)))) := by
    rw [gradetext, if_neg (by simp [hflag]), writesubst, hsubst, hg]
    simp only [printOption, Option.elim, List.append_assoc]
    rfl
  rw [htext] at h
  have hrun : Runs (readgrade nums asgt' (freshScore s.asgt) r)
      { freshScore s.asgt with subst := .useraw, grade := some y, code := trim s.code }
      (At (newline :: t)) := by
    rw [readgrade]
    refine (checksubst_some (Or.inl h)
      (leads_word (isWord_substword _) (endsWord_blank _))).bind fun r₁ h₁ => ?_
    refine (readvalue_run hnums (Or.inl h₁)
      (leads_word (hnums.isWord g) (endsWord_blank _)) hy _).bind fun r₂ h₂ => ?_
    exact (readcode_line hs.code h₂).bind fun r' h' => ⟨r', rfl, h'⟩
  refine Recovers.of_runs hrun ⟨fun _ _ => by simp [hsubst], fun _ => ?_⟩
  refine ⟨rfl, by rw [hg]; exact Or.inr hy, by rw [hq]; rfl, by rw [hl]; rfl,
    by rw [hsn]; rfl, hflag, fun _ => hsubst, ?_⟩
  exact fun _ => (trim_trim s.code).symm

theorem readgrade_average {g : Gsubst} (hg : g = .uselikeavg ∨ g = .useclassavg) (i : Fin n)
    {code : Text} (hcode : IsLine code)
    (h : At (32 :: (substword g ++ 32 :: (code ++ newline :: t))) r) :
    Runs (readgrade nums asgt' (freshScore i) r) { freshScore i with subst := g, code := trim code }
      (At (newline :: t)) := by
  rw [readgrade]
  refine (checksubst_some (Or.inl h) (leads_word (isWord_substword g) (endsWord_blank _))).bind
    fun r₁ h₁ => ?_
  rcases hg with rfl | rfl
  · exact (readcode_line hcode h₁).bind fun r' h' => ⟨r', rfl, h'⟩
  · exact (readcode_line hcode h₁).bind fun r' h' => ⟨r', rfl, h'⟩

theorem readgrade_likeavg (hs : Graded asgts s) (hflag : s.flag = .invalid)
    (hsubst : s.subst = .uselikeavg ∨ s.subst = .useclassavg)
    (h : At (gradetext nums asgt s ++ newline :: t) r) :
    Recovers Clean (RereadableScore s) (SameScore nums s)
      (readgrade nums asgt' (freshScore s.asgt) r)
      (At (newline :: t)) := by
  obtain ⟨hq, hl, hsn⟩ :=
    hs.notNormalized (Or.inr (by rcases hsubst with hsubst | hsubst <;> simp [hsubst]))
  have hg := hs.noGrade ⟨hflag, by rcases hsubst with hsubst | hsubst <;> simp [hsubst]⟩
  have htext : gradetext nums asgt s ++ newline :: t =
      32 :: (substword s.subst ++ 32 :: (s.code ++ newline :: t)) := by
    rw [gradetext, if_neg (by simp [hflag]), writesubst]
    rcases hsubst with hsubst | hsubst
    · rw [hsubst]
      simp only [List.append_assoc]
      rfl
    · rw [hsubst]
      simp only [List.append_assoc]
      rfl
  rw [htext] at h
  refine Recovers.of_runs (readgrade_average hsubst s.asgt hs.code h) ⟨fun _ _ => ?_, fun _ => ?_⟩
  · rcases hsubst with hsubst | hsubst <;> simp [hsubst]
  · refine ⟨rfl, by rw [hg]; rfl, by rw [hq]; rfl, by rw [hl]; rfl, by rw [hsn]; rfl, hflag,
      fun _ => rfl, ?_⟩
    exact fun _ => (trim_trim s.code).symm

-- The keyword that USENORM runs on into becomes a part of the code.
theorem trim_usenorm (code : Text) :
    trim (ascii " USELIKEAVG" ++ 32 :: code) = ascii "USELIKEAVG" ++ 32 :: code :=
  trim_blank _ |>.trans (List.dropWhile_cons_of_neg (by decide))

theorem not_same_usenorm {s' : Score (Option F) n} (hflag : s.flag = .invalid)
    (hcode : s'.code = trim (ascii " USELIKEAVG" ++ 32 :: s.code)) : ¬SameScore nums s s' := by
  intro h
  have heq := congrArg List.length (h.code hflag)
  rw [hcode, trim_trim, trim_usenorm, List.length_append, List.length_cons] at heq
  have hle := length_trim_le s.code
  omega

theorem readnormalized_cases {x y : F} (asgt' : Assignment (Option F)) (hnums : Lawful nums)
    (h : At (32 :: (nums.print x ++ rest)) r)
    (hrest : EndsWord rest) (hy : nums.scan (nums.print x) = some y) :
    Runs (readnormalized nums asgt' s r)
        { s with qnorm := some y, lnorm := some y, snorm := some y } (At rest) ∨
      Spoils Clean (readnormalized nums asgt' s r) := by
  have hleads := leads_word (hnums.isWord x) hrest
  obtain ⟨r₁, hpeek, h₁⟩ := peek_ahead (Or.inl h) hleads
  obtain ⟨r₂, hscan, h₂⟩ := scannumber_run h₁ hnums hy
  rw [readnormalized, stateT_bind_of hpeek, stateT_bind_of hscan]
  rcases checkrange_cases nums asgt' y r₂ with hrange | hrange
  · left
    change Runs ((checkrange nums asgt' y >>= fun _ => pure _) r₂) _ _
    rw [stateT_bind_of hrange]
    exact ⟨r₂, rfl, h₂⟩
  · right
    change Spoils Clean ((checkrange nums asgt' y >>= fun _ => pure _) r₂)
    exact Spoils.bind (q := fun _ => True) h₂.sound hrange (returns_checkrange asgt' y)
      fun _ => Ensures.pure trivial

theorem readgrade_usenorm (hnums : Lawful nums) (hs : Graded asgts s) (hflag : s.flag = .invalid)
    (hsubst : s.subst = .usenorm) (h : At (gradetext nums asgt s ++ newline :: t) r) :
    Recovers Clean (RereadableScore s) (SameScore nums s)
      (readgrade nums asgt' (freshScore s.asgt) r) (At (newline :: t)) := by
  have hbad : ¬RereadableScore s := fun hgood => hgood hflag hsubst
  obtain ⟨f, hq, hl, hsn⟩ := hs.normalized ⟨hflag, hsubst⟩
  obtain ⟨y, hy⟩ := hnums.scan f
  by_cases hraw : asgt.npolicy = .raw
  · have htext : gradetext nums asgt s ++ newline :: t =
        32 :: (substword .uselikeavg ++ 32 :: (s.code ++ newline :: t)) := by
      rw [gradetext, if_neg (by simp [hflag]), writesubst, hsubst, hraw]
      simp only [List.append_assoc]
      rfl
    rw [htext] at h
    refine Recovers.of_runs (readgrade_average (Or.inl rfl) s.asgt hs.code h)
      ⟨fun hsame => ?_, fun h => absurd h hbad⟩
    have heq : s.subst = .uselikeavg := hsame.subst hflag
    rw [hsubst] at heq
    cases heq
  · have htext : gradetext nums asgt s ++ newline :: t =
        32 :: (substword .usenorm ++ (32 :: (nums.print f ++
        ((ascii " USELIKEAVG" ++ 32 :: s.code) ++ newline :: t)))) := by
      rw [gradetext, if_neg (by simp [hflag]), writesubst, hsubst]
      cases hpolicy : asgt.npolicy with
      | raw => exact absurd hpolicy hraw
      | linear =>
          rw [hl]
          simp only [printOption, Option.elim, List.append_assoc]
          rfl
      | quantile =>
          rw [hq]
          simp only [printOption, Option.elim, List.append_assoc]
          rfl
      | scale =>
          rw [hsn]
          simp only [printOption, Option.elim, List.append_assoc]
          rfl
    rw [htext] at h
    have hends : EndsWord ((ascii " USELIKEAVG" ++ 32 :: s.code) ++ newline :: t) :=
      ⟨32, _, rfl, Or.inl (by decide)⟩
    refine ⟨fun hgood => absurd hgood hbad, fun _ a r' hrun hclean => ?_⟩
    rw [readgrade] at hrun
    obtain ⟨r₁, hcheck, h₁⟩ :=
      checksubst_some (Or.inl h) (leads_word (isWord_substword _) (endsWord_blank _))
    rw [stateT_bind_of hcheck] at hrun
    obtain ⟨a₁, r₂, hnorm, hrest⟩ := stateT_bind_ok hrun
    obtain ⟨code, r₃, hcode, hpure⟩ := stateT_bind_ok hrest
    obtain ⟨rfl, rfl⟩ := Prod.mk.inj (Except.ok.inj hpure)
    have hs₂ := (returns_readnormalized asgt' _ r₁ a₁ r₂ h₁.sound hnorm).1
    rcases readnormalized_cases (s := freshScore s.asgt) asgt' hnums h₁ hends hy
      with hnormal | hspoils
    · obtain ⟨r₂', hnorm', h₂⟩ := hnormal
      rw [hnorm] at hnorm'
      obtain ⟨-, rfl⟩ := Prod.mk.inj (Except.ok.inj hnorm')
      have hline := readcode_run h₂ (isLine_usenorm hs.code)
      rw [hcode] at hline
      split at hline
      · obtain ⟨rfl, -⟩ := Prod.mk.inj (Except.ok.inj hline)
        exact not_same_usenorm hflag rfl
      · cases hline
    · exact absurd ((returns_readcode r₂ code r₃ hs₂ hcode).2 hclean).1 (hspoils a₁ r₂ hnorm)

theorem readgrade_recovers (hnums : Lawful nums) (hs : Graded asgts s)
    (h : At (gradetext nums asgt s ++ newline :: t) r) :
    Recovers Clean (RereadableScore s) (SameScore nums s)
      (readgrade nums asgt' (freshScore s.asgt) r)
      (At (newline :: t)) := by
  cases hflag : s.flag with
  | valid => exact readgrade_valid hnums hs hflag h
  | invalid =>
      cases hsubst : s.subst with
      | useraw => exact readgrade_useraw hnums hs hflag hsubst h
      | usenorm => exact readgrade_usenorm hnums hs hflag hsubst h
      | uselikeavg => exact readgrade_likeavg hs hflag (Or.inl hsubst) h
      | useclassavg => exact readgrade_likeavg hs hflag (Or.inr hsubst) h

theorem gradetext_blank (nums : Numbers F) (asgt : Assignment (Option F)) (s : Score (Option F) n) :
    ∃ text, gradetext nums asgt s = 32 :: text := by
  rw [gradetext, writesubst]
  split
  · exact ⟨_, rfl⟩
  · split
    · exact ⟨_, rfl⟩
    · split <;> exact ⟨_, rfl⟩
    · exact ⟨_, rfl⟩
    · exact ⟨_, rfl⟩

def bodyscore (nums : Numbers F) (asgts : Vector (Assignment (Option F)) n)
    (s : Score (Option F) n) : Text :=
  32 :: ((asgts.get s.asgt).name ++ (gradetext nums (asgts.get s.asgt) s ++ [newline]))

theorem writescore_eq (s : Score (Option F) n) :
    writescore nums asgts s = [32, 32, 32] ++ (ascii "SCORE" ++ bodyscore nums asgts s) := by
  have hget : asgts.get s.asgt = asgts[s.asgt] := rfl
  rw [writescore, bodyscore, gradetext, hget]
  simp only [List.append_assoc]
  rfl

theorem findassignment_congr (hnames : ∀ i : Fin n, (asgts'.get i).name = (asgts.get i).name)
    (name : Text) : findassignment asgts' name = findassignment asgts name := by
  have hsame (i : Fin n) : asgts'[i].name = asgts[i].name := hnames i
  simp only [findassignment, hsame]

theorem readscore_recovers (hrounds : 0 < rounds) (hnums : Lawful nums)
    (hnames : ∀ i : Fin n, (asgts'.get i).name = (asgts.get i).name)
    (hwords : ∀ i : Fin n, IsWord False (asgts.get i).name) (hs : Graded asgts s) (ht : Next words t)
    (h : At (bodyscore nums asgts s ++ t) r) :
    Recovers Clean (RereadableScore s) (SameScore nums s) (readscore rounds nums asgts' r)
      (Ahead t) := by
  have hbody : bodyscore nums asgts s ++ t =
      32 :: ((asgts.get s.asgt).name ++ (gradetext nums (asgts.get s.asgt) s ++ newline :: t)) := by
    simp only [bodyscore, List.cons_append, List.append_assoc, List.nil_append]
  have hends : EndsWord (gradetext nums (asgts.get s.asgt) s ++ newline :: t) := by
    obtain ⟨text, htext⟩ := gradetext_blank nums (asgts.get s.asgt) s
    rw [htext]
    exact endsWord_blank _
  rw [hbody] at h
  have hword := hwords s.asgt
  rw [readscore]
  refine Recovers.after (peek_ahead (Or.inl h) (leads_word hword hends)) fun r₁ h₁ => ?_
  rw [stateT_bind_of (get_run r₁), if_pos (istoken_holding h₁), cstring_holding h₁ hword,
    findassignment_congr hnames, hs.asgt]
  change Recovers Clean _ _ ((readgrade nums (asgts'.get s.asgt) (freshScore s.asgt) >>= fun s' =>
    expectnewline rounds >>= fun _ => pure s') { r₁ with token := [] }) _
  have hret : Returns True (readgrade nums (asgts'.get s.asgt) (freshScore s.asgt)) (Graded asgts') :=
    returns_readgrade _ _ (by rw [findassignment_congr hnames, hnames, hs.asgt])
  refine (Recovers.bind h₁.flushed.sound (readgrade_recovers hnums hs h₁.flushed) hret
    (fun s' r₂ hsame h₂ => ?_)
    fun s' => ?_).congr (iff_of_eq (and_true (RereadableScore s)))
  · refine Recovers.of_runs
      ((expectnewline_run h₂ ht hrounds).bind fun r' h' => ⟨r', rfl, Or.inl h'⟩) ?_
    exact iff_of_true hsame trivial
  · exact Ensures.bind (returns_expectnewline rounds) fun _ => Ensures.pure fun _ hsame => hsame

theorem writescore_leads (s : Score (Option F) n) (t : Text) :
    (writescore nums asgts s ++ t).head? = some 32 ∧
    Leads (writescore nums asgts s ++ t) (ascii "SCORE") (bodyscore nums asgts s ++ t) := by
  rw [writescore_eq, List.append_assoc, List.append_assoc]
  exact leads_indented _ (by decide) (isWord_keyword (by decide)) _

theorem readscores_recovers (hrounds : 0 < rounds) (hnums : Lawful nums)
    (hnames : ∀ i : Fin n, (asgts'.get i).name = (asgts.get i).name)
    (hwords : ∀ i : Fin n, IsWord False (asgts.get i).name) {l : List (Score (Option F) n)}
    (hl : ∀ s ∈ l, Graded asgts s) (ht : Next [ascii "STUDENT", ascii "SECTION", ascii "FILE"] t)
    (hn : l.length < rounds) (h : Ahead (l.flatMap (writescore nums asgts) ++ t) r) :
    Recovers Clean (∀ s ∈ l, RereadableScore s) (List.Forall₂ (SameScore nums) l)
      (readscores rounds nums asgts' r)
      (Ahead t) := by
  refine many_recovers (bodyscore nums asgts) writescore_leads (by decide)
    ((returns_readscore rounds).mono fun _ _ => trivial) l (fun s hs t r ht h => ?_) ht hn h
  exact readscore_recovers hrounds hnums hnames hwords (hl s hs) ht h

end

end CSE320.Grades.File
