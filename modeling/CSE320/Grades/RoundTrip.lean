import CSE320.Grades.Reread
import CSE320.Grades.Rounds
import Mathlib.Data.List.Forall2

namespace CSE320.Grades.File

open Lib

variable {F : Type} {nums : Numbers F} {rounds n : Nat} {t rest : Text} {r : Reader}

structure SameCourse {n n' : Nat} (nums : Numbers F) (c : Course (Option F) n)
    (c' : Course (Option F) n') : Prop where
  number : c.number = c'.number
  title : c.title = c'.title
  professor : c.professor = c'.professor
  assignments : List.Forall₂ (SameAssignment nums) c.assignments.toList c'.assignments.toList
  sections : List.Forall₂ (SameSection nums) c.sections c'.sections

structure RereadableCourse (c : Course (Option F) n) : Prop where
  title : Unspaced c.title
  professor : ∀ p ∈ c.professor, Unspaced p.name
  assignments : ∀ a ∈ c.assignments.toList, RereadableAssignment a
  sections : ∀ s ∈ c.sections, RereadableSection s

structure FitsCourse (rounds : Nat) (c : Course (Option F) n) : Prop where
  norm : 4 ≤ rounds
  assignments : n < rounds
  sections : c.sections.length < rounds
  lists : ∀ s ∈ c.sections, FitsSection rounds s

theorem expecttoken_run {key : Text} (h : Ahead t r) (hleads : Leads t key rest) :
    Runs (expecttoken key r) () (At rest) := by
  obtain ⟨r₁, hpeek, h₁⟩ := peek_ahead h hleads
  refine ⟨_, ?_, h₁.flushed⟩
  rw [expecttoken, stateT_bind_of hpeek, stateT_bind_of (get_run r₁),
    if_pos ⟨istoken_holding h₁, cstring_holding h₁ hleads.word⟩]
  rfl

theorem expecteof_run (h : At [] r) : expecteof r = .ok ((), r) := by
  have hgetc : getc r = .ok (none, r) := by rw [getc, h.input]
  rw [expecteof, stateT_bind_of (get_run r), if_neg (by simp [istoken_at h]),
    stateT_bind_of hgetc, if_pos rfl]
  rfl

theorem next_writeprofessor {p : Option Professor} {words : List Text}
    (hkey : ascii "PROFESSOR" ∈ words) (ht : Next words t) :
    Next words (writeprofessor p ++ t) := by
  cases p with
  | none => exact ht
  | some p =>
      have htext : writeprofessor (some p) ++ t =
          [32] ++ (ascii "PROFESSOR" ++ 32 ::
            (p.surname ++ (ascii ", " ++ p.name ++ newline :: t))) := by
        simp only [writeprofessor, List.append_assoc]
        rfl
      rw [htext]
      have hleads := leads_indented [32] (by decide) (isWord_keyword (s := "PROFESSOR") (by decide))
      exact Or.inr ⟨(hleads _).1, _, hkey, _, (hleads _).2⟩

-- The sections are read with the assignments that have been read back before them.
theorem recovers_sections {c : Course (Option F) n} (hnums : Lawful nums)
    (hc : Accepted False nums c) (hfits : FitsCourse rounds c) (professor : Option Professor)
    {as : List (Assignment (Option F))}
    (hsame : List.Forall₂ (SameAssignment nums) c.assignments.toList as)
    (h : Ahead (c.sections.flatMap (writesection nums c.assignments)) r) :
    Recovers Clean ((∀ s ∈ c.sections, RereadableSection s) ∧
      (c.title = trim c.title ∧ c.professor = professor))
      (fun c' => SameCourse nums c c'.2)
      ((readsections rounds nums ⟨as.toArray, rfl⟩ rounds >>= fun sections => (pure ⟨as.length,
        { number := c.number, title := trim c.title, professor, assignments :=
          ⟨as.toArray, rfl⟩, sections }⟩ :
          Read ((n : Nat) × Course (Option F) n))) r) (At []) := by
  have hlength : n = as.length := by rw [← List.Forall₂.length_eq hsame, Vector.length_toList]
  subst hlength
  have hnames (i : Fin as.length) :
      (⟨as.toArray, rfl⟩ : Vector (Assignment (Option F)) as.length)[i].name =
      c.assignments[i].name := by
    have hget := List.Forall₂.get hsame (show i.val < _ by simp) i.isLt
    simpa using hget.name.symm
  have hwords (i : Fin as.length) : IsWord False c.assignments[i].name :=
    (hc.assignments _ (by simp)).name
  refine (readsections_recovers hnums hnames hwords hc.sections hfits.lists hfits.sections h).map
    fun sections => ?_
  exact ⟨fun h => ⟨h.sections, h.title, h.professor⟩, fun h => ⟨rfl, h.2.1, h.2.2, hsame, h.1⟩⟩

theorem readcourse_recovers {c : Course (Option F) n} (hnums : Lawful nums)
    (hc : Accepted False nums c) (hfits : FitsCourse rounds c) (h : At (writecourse nums c) r) :
    Recovers Clean (RereadableCourse c) (fun c' => SameCourse nums c c'.2)
      (readcourse rounds nums r) (At []) := by
  have hpos : 0 < rounds := Nat.zero_lt_of_lt hfits.norm
  let asgts := c.assignments.toList.flatMap (writeassignment nums)
  let sections := c.sections.flatMap (writesection nums c.assignments)
  have htext : writecourse nums c = ascii "COURSE" ++
      (32 :: (c.number ++ ([32] ++ c.title ++ newline ::
      (writeprofessor c.professor ++ (asgts ++ sections))))) := by
    simp only [writecourse, List.append_assoc]
    rfl
  have hsections : Next [ascii "SECTION", ascii "FILE"] sections := by
    have hflat := next_flatMap (bodysection nums c.assignments) writesection_leads
      (show ascii "SECTION" ∈ [ascii "SECTION", ascii "FILE"] by decide) (Or.inl rfl) c.sections
    rwa [List.append_nil] at hflat
  have hasgts : Next [ascii "ASSIGNMENT", ascii "SECTION", ascii "FILE"] (asgts ++ sections) :=
    next_flatMap (bodyassignment nums) writeassignment_leads (by decide)
      (hsections.mono (by decide)) _
  have hprofessor : Next [ascii "PROFESSOR", ascii "ASSIGNMENT", ascii "SECTION", ascii "FILE"]
      (writeprofessor c.professor ++ (asgts ++ sections)) :=
    next_writeprofessor (by decide) (hasgts.mono (by decide))
  rw [htext] at h
  have hkey (t : Text) : Leads (ascii "COURSE" ++ 32 :: t) (ascii "COURSE") (32 :: t) :=
    ⟨⟨[], rfl, by decide⟩, isWord_keyword (by decide), endsWord_blank t⟩
  rw [readcourse]
  refine Recovers.after (expecttoken_run (Or.inl h) (hkey _)) fun r₁ h₁ => ?_
  refine Recovers.after (readword_run (Or.inl h₁) (leads_word hc.number (endsWord_blank _)) _)
    fun r₂ h₂ => ?_
  refine Recovers.after (readname_run hpos h₂ (by decide) hc.title hprofessor) fun r₃ h₃ => ?_
  refine Recovers.after (readprofessor_run hpos hc.professor hasgts (by decide) (Or.inl h₃))
    fun r₄ h₄ => ?_
  have hlength : c.assignments.toList.length < rounds := by
    rw [Vector.length_toList]
    exact hfits.assignments
  have hassignments := readassignments_recovers hfits.norm hnums hc.assignments hsections hlength h₄
  refine (Recovers.bind h₄.sound hassignments (returns_readassignments rounds)
    (fun as r₅ hsame h₅ => recovers_sections hnums hc hfits _ hsame h₅) fun as => ?_).congr ?_
  · exact Ensures.bind (returns_readsections rounds rounds) fun sections =>
      Ensures.pure fun _ hsame => hsame.assignments
  · rw [eq_trim_iff, map_trim_professor]
    exact ⟨fun h => ⟨h.2.2.1, h.2.2.2, h.1, h.2.1⟩,
      fun h => ⟨h.assignments, h.sections, h.title, h.professor⟩⟩

theorem readfile_recovers {c : Course (Option F) n} (hnums : Lawful nums)
    (hc : Accepted False nums c) (hfits : FitsCourse rounds c) :
    Recovers Clean (RereadableCourse c) (fun c' => SameCourse nums c c'.2)
      (readfile rounds nums (Reader.start (writecourse nums c))) (At []) := by
  have hpos : 0 < rounds := Nat.zero_lt_of_lt hfits.norm
  have hat : At (writecourse nums c) (Reader.start (writecourse nums c)) := ⟨rfl, rfl, rfl, rfl⟩
  have hhead : ∀ b ∈ (writecourse nums c).head?, b ≠ 35 ∧ b ≠ newline ∧ b ≠ eof := by
    have htext : (writecourse nums c).head? = some 67 := by
      simp only [writecourse, List.append_assoc]
      rfl
    rw [htext]
    decide
  rw [readfile, stateT_bind_of (gobbleblanklines_at hat hhead hpos)]
  refine (Recovers.bind hat.sound (readcourse_recovers hnums hc hfits hat)
    (returns_readcourse rounds)
    (fun c' r₁ hsame h₁ => ?_) fun c' => ?_).congr (iff_of_eq (and_true (RereadableCourse c)))
  · rw [stateT_bind_of (gobbleblanklines_at h₁ (by simp) hpos), stateT_bind_of (expecteof_run h₁)]
    exact Recovers.of_runs ⟨r₁, rfl, h₁⟩ (iff_of_true hsame trivial)
  · refine Ensures.bind (returns_gobbleblanklines rounds) fun _ =>
      Ensures.bind returns_expecteof fun _ => ?_
    exact Ensures.pure fun _ _ hsame => hsame

theorem exists_bound {β : Type} (f : β → Nat) (l : List β) : ∃ bound, ∀ x ∈ l, f x < bound := by
  induction l with
  | nil => exact ⟨0, by simp⟩
  | cons x l ih =>
      obtain ⟨bound, hbound⟩ := ih
      refine ⟨bound + f x + 1, List.forall_mem_cons.mpr ⟨by omega, fun y hy => ?_⟩⟩
      have hlt := hbound y hy
      omega

theorem exists_fits (c : Course (Option F) n) : ∃ bound, ∀ rounds ≥ bound, FitsCourse rounds c := by
  obtain ⟨students, hstudents⟩ :=
    exists_bound (fun s : Section (Option F) n => s.roster.length) c.sections
  obtain ⟨scores, hscores⟩ := exists_bound (fun st : Student (Option F) n => st.rawscores.length)
    (c.sections.flatMap fun s => s.roster)
  refine ⟨4 + n + c.sections.length + students + scores + 1,
    fun rounds hrounds => ⟨by omega, by omega, by omega, ?_⟩⟩
  intro s hs
  refine ⟨?_, fun st hst => ?_⟩
  · have hlt := hstudents s hs
    omega
  · have hlt := hscores st (List.mem_flatMap.mpr ⟨s, hs, hst⟩)
    omega

-- No word is empty.
structure Worded (c : Course (Option F) n) : Prop where
  number : c.number ≠ []
  professor : ∀ p ∈ c.professor, p.surname ≠ []
  assignments : ∀ a ∈ c.assignments.toList, a.name ≠ [] ∧ a.atype ≠ []
  assistants : ∀ s ∈ c.sections, ∀ a ∈ s.assistant, a.surname ≠ []
  students : ∀ s ∈ c.sections, ∀ st ∈ s.roster, st.id ≠ [] ∧ st.surname ≠ []

theorem IsWord.of_ne {nul : Prop} (h : IsWord nul t) (hne : t ≠ []) : IsWord False t :=
  ⟨h.1, h.2.1, hne⟩

theorem Accepted.of_worded {c : Course (Option F) n} (hc : Accepted True nums c)
    (hwords : Worded c) :
    Accepted False nums c := by
  refine ⟨hc.number.of_ne hwords.number, hc.title, fun p hp => ?_, fun a ha => ?_,
    fun s hs => ⟨?_, fun a ha => ?_, ?_⟩⟩
  · exact ⟨(hc.professor p hp).1.of_ne (hwords.professor p hp), (hc.professor p hp).2⟩
  · have hdeclared := hc.assignments a ha
    obtain ⟨hname, hatype⟩ := hwords.assignments a ha
    exact { hdeclared with name := hdeclared.name.of_ne hname, atype :=
      hdeclared.atype.of_ne hatype }
  · exact (hc.sections s hs).name
  · have hassistant := (hc.sections s hs).assistant a ha
    exact ⟨hassistant.1.of_ne (hwords.assistants s hs a ha), hassistant.2⟩
  · intro st hst
    have henrolled := (hc.sections s hs).roster st hst
    obtain ⟨hid, hsurname⟩ := hwords.students s hs st hst
    exact { henrolled with id := henrolled.id.of_ne hid, surname :=
      henrolled.surname.of_ne hsurname }

theorem forall_of_forall₂ {α β : Type} {R : α → β → Prop} {p : α → Prop} {q : β → Prop} {l : List α}
    {l' : List β} (h : List.Forall₂ R l l') (hq : ∀ b ∈ l', q b) (hpq : ∀ a b, R a b → q b → p a) :
    ∀ a ∈ l, p a := by
  induction h with
  | nil => simp
  | cons hab _ ih =>
      obtain ⟨hb, hq⟩ := List.forall_mem_cons.mp hq
      exact List.forall_mem_cons.mpr ⟨hpq _ _ hab hb, ih hq⟩

-- A course that is the same as one without empty words has none.
theorem Worded.of_same {n' : Nat} {c : Course (Option F) n} {c' : Course (Option F) n'}
    (hsame : SameCourse nums c c') (hc' : Accepted False nums c') : Worded c := by
  refine ⟨?_, fun p hp => ?_, ?_, ?_, ?_⟩
  · rw [hsame.number]
    exact hc'.number.2.2
  · rw [hsame.professor] at hp
    exact (hc'.professor p hp).1.2.2
  · refine forall_of_forall₂ hsame.assignments hc'.assignments fun a b hab hb => ?_
    rw [hab.name, hab.atype]
    exact ⟨hb.name.2.2, hb.atype.2.2⟩
  · refine forall_of_forall₂ hsame.sections hc'.sections fun s s' hs hs' a ha => ?_
    rw [hs.assistant] at ha
    exact (hs'.assistant a ha).1.2.2
  · refine forall_of_forall₂ hsame.sections hc'.sections fun s s' hs hs' => ?_
    refine forall_of_forall₂ hs.roster hs'.roster fun st st' hst hst' => ?_
    rw [hst.id, hst.surname]
    exact ⟨hst'.id.2.2, hst'.surname.2.2⟩

section

variable {asgts : Vector (Assignment (Option F)) n} {nul : Prop}

abbrev NulFree (t : Text) : Prop := ∀ c ∈ t, c ≠ 0

theorem NulFree.append {t t' : Text} (h : NulFree t) (h' : NulFree t') : NulFree (t ++ t') := by
  intro c hc
  exact (List.mem_append.mp hc).elim (h c) (h' c)

theorem nulFree_flatMap {β : Type} {l : List β} {write : β → Text}
    (h : ∀ b ∈ l, NulFree (write b)) :
    NulFree (l.flatMap write) := by
  intro c hc
  obtain ⟨b, hb, hmem⟩ := List.mem_flatMap.mp hc
  exact h b hb c hmem

theorem IsWord.nulFree (h : IsWord nul t) : NulFree t := fun c hc => (h.1 c hc).2

theorem IsLine.nulFree (h : IsLine t) : NulFree t := fun c hc => (h.1 c hc).2.2

theorem nulFree_nil : NulFree [] := fun _ h => nomatch h

theorem nulFree_ascii {s : String}
    (h : (s.toList.all fun c => 0 < c.toNat ∧ c.toNat < 256) = true) :
    NulFree (ascii s) := by
  intro b hb hzero
  obtain ⟨c, hc, rfl⟩ := List.mem_map.mp hb
  have hnat : c.toNat % 2 ^ 8 = 0 := by simpa using congrArg BitVec.toNat hzero
  have hbyte : 0 < c.toNat ∧ c.toNat < 256 := of_decide_eq_true (List.all_eq_true.mp h c hc)
  omega

theorem nulFree_printOption (hnums : Lawful nums) (x : Option F) :
    NulFree (printOption nums x) := by
  cases x with
  | none => exact nulFree_nil
  | some x => exact (hnums.isWord x).nulFree

theorem nulFree_writeprofessor {p : Option Professor}
    (hp : ∀ x ∈ p, IsWord nul x.surname ∧ IsLine x.name) :
    NulFree (writeprofessor p) := by
  cases p with
  | none => exact nulFree_nil
  | some x =>
      obtain ⟨hsurname, hname⟩ := hp x rfl
      exact ((((nulFree_ascii (s := " PROFESSOR ") (by decide)).append hsurname.nulFree).append
        (nulFree_ascii (by decide))).append
        hname.nulFree).append (nulFree_ascii (by decide))

theorem nulFree_writeassistant {a : Option Assistant}
    (ha : ∀ x ∈ a, IsWord nul x.surname ∧ IsLine x.name) :
    NulFree (writeassistant a) := by
  cases a with
  | none => exact nulFree_nil
  | some x =>
      obtain ⟨hsurname, hname⟩ := ha x rfl
      exact ((((nulFree_ascii (s := " ASSISTANT ") (by decide)).append hsurname.nulFree).append
        (nulFree_ascii (by decide))).append
        hname.nulFree).append (nulFree_ascii (by decide))

theorem nulFree_writesubst (hnums : Lawful nums) (asgt : Assignment (Option F))
    (s : Score (Option F) n) :
    NulFree (writesubst nums asgt s) := by
  have hprint (x : Option F) := nulFree_printOption hnums x
  have husenorm : NulFree (ascii " USENORM ") := nulFree_ascii (by decide)
  rw [writesubst]
  cases s.subst with
  | useraw => exact (nulFree_ascii (s := " USERAW ") (by decide)).append (hprint s.grade)
  | usenorm =>
      refine NulFree.append ?_ (nulFree_ascii (by decide))
      cases asgt.npolicy with
      | raw => exact nulFree_nil
      | linear => exact husenorm.append (hprint _)
      | quantile => exact husenorm.append (hprint _)
      | scale => exact husenorm.append (hprint _)
  | uselikeavg => exact nulFree_ascii (by decide)
  | useclassavg => exact nulFree_ascii (by decide)

theorem nulFree_writescore (hnums : Lawful nums)
    (hwords : ∀ i : Fin n, IsWord nul (asgts.get i).name)
    {s : Score (Option F) n} (hs : Graded asgts s) : NulFree (writescore nums asgts s) := by
  rw [writescore]
  refine NulFree.append (NulFree.append ?_ ?_) (nulFree_ascii (by decide))
  · exact (nulFree_ascii (s := "   SCORE ") (by decide)).append (hwords s.asgt).nulFree
  · split
    · exact (nulFree_ascii (s := " ") (by decide)).append (nulFree_printOption hnums _)
    · exact ((nulFree_writesubst hnums _ s).append (nulFree_ascii (by decide))).append
        hs.code.nulFree

theorem nulFree_writestudent (hnums : Lawful nums)
    (hwords : ∀ i : Fin n, IsWord nul (asgts.get i).name)
    {s : Student (Option F) n} (hs : Enrolled nul asgts s) :
    NulFree (writestudent nums asgts s) := by
  rw [writestudent]
  refine NulFree.append ?_
    (nulFree_flatMap fun sc hsc => nulFree_writescore hnums hwords (hs.rawscores sc hsc))
  refine NulFree.append (NulFree.append ?_ hs.name.nulFree) (nulFree_ascii (by decide))
  refine NulFree.append (NulFree.append ?_ hs.surname.nulFree) (nulFree_ascii (by decide))
  exact ((nulFree_ascii (s := "  STUDENT ") (by decide)).append hs.id.nulFree).append
    (nulFree_ascii (by decide))

theorem nulFree_writesection (hnums : Lawful nums)
    (hwords : ∀ i : Fin n, IsWord nul (asgts.get i).name)
    {s : Section (Option F) n} (hs : Filled nul asgts s) : NulFree (writesection nums asgts s) := by
  rw [writesection]
  refine NulFree.append ?_
    (nulFree_flatMap fun st hst => nulFree_writestudent hnums hwords (hs.roster st hst))
  refine NulFree.append ?_ (nulFree_writeassistant hs.assistant)
  exact ((nulFree_ascii (s := " SECTION ") (by decide)).append hs.name.nulFree).append
    (nulFree_ascii (by decide))

theorem nulFree_writenorm (hnums : Lawful nums) (a : Assignment (Option F)) :
    NulFree (writenorm nums a) := by
  have hprint (x : Option F) := nulFree_printOption hnums x
  rw [writenorm]
  split
  · exact nulFree_nil
  · refine NulFree.append (NulFree.append (NulFree.append ?_ (nulFree_ascii (by decide))) ?_)
      (nulFree_ascii (by decide))
    · cases a.npolicy with
      | raw => exact nulFree_nil
      | linear =>
          exact (((nulFree_ascii (s := "  NORMALIZE LINEAR: ") (by decide)).append
            (hprint _)).append (nulFree_ascii (by decide))).append
            (hprint _)
      | quantile => exact nulFree_ascii (by decide)
      | scale => exact (nulFree_ascii (s := "  NORMALIZE SCALE ") (by decide)).append (hprint _)
    · split <;> exact nulFree_ascii (by decide)

theorem nulFree_writeassignment (hnums : Lawful nums) {a : Assignment (Option F)}
    (ha : Declared nul nums a) :
    NulFree (writeassignment nums a) := by
  have hprint (x : Option F) := nulFree_printOption hnums x
  rw [writeassignment]
  refine NulFree.append
    (NulFree.append (NulFree.append (NulFree.append ?_ (nulFree_ascii (by decide))) ?_) ?_) ?_
  · exact (((nulFree_ascii (s := " ASSIGNMENT ") (by decide)).append ha.name.nulFree).append
      (nulFree_ascii (by decide))).append
      ha.atype.nulFree
  · split
    · exact ((nulFree_ascii (s := "  WEIGHT ") (by decide)).append (hprint _)).append
        (nulFree_ascii (by decide))
    · exact nulFree_nil
  · exact nulFree_writenorm hnums a
  · split
    · exact nulFree_nil
    · exact ((nulFree_ascii (s := "  MAXIMUM ") (by decide)).append (hprint _)).append
        (nulFree_ascii (by decide))

theorem nulFree_writecourse (hnums : Lawful nums) {c : Course (Option F) n}
    (hc : Accepted nul nums c) :
    NulFree (writecourse nums c) := by
  have hwords (i : Fin n) : IsWord nul c.assignments[i].name := (hc.assignments _ (by simp)).name
  rw [writecourse]
  refine NulFree.append
    (NulFree.append (NulFree.append (NulFree.append ?_ (nulFree_ascii (by decide))) ?_) ?_) ?_
  · exact (((nulFree_ascii (s := "COURSE ") (by decide)).append hc.number.nulFree).append
      (nulFree_ascii (by decide))).append
      hc.title.nulFree
  · exact nulFree_writeprofessor hc.professor
  · exact nulFree_flatMap fun a ha => nulFree_writeassignment hnums (hc.assignments a ha)
  · exact nulFree_flatMap fun s hs => nulFree_writesection hnums hwords (hc.sections s hs)

end

-- The text is read as this course, without an error. With enough rounds the loops end.
def Reads (nums : Numbers F) (text : List Byte) (c : (n : Nat) × Course (Option F) n) : Prop :=
  ∃ rounds r, readfile rounds nums (Reader.start text) = .ok (c, r) ∧ r.errors = []

theorem Reads.accepted {text : List Byte} {c : (n : Nat) × Course (Option F) n}
    (h : Reads nums text c) (nul : Prop) (htext : ∀ b ∈ text, b = 0 → nul) :
    Accepted nul nums c.2 := by
  obtain ⟨rounds, r, hrun, hclean⟩ := h
  have hstart : Sound nul (Reader.start text) := ⟨rfl, htext, Or.inl rfl⟩
  exact ((returns_readfile rounds _ c r hstart hrun).2 hclean).2

theorem Accepted.rereadable (hnums : Lawful nums) {c c' : (n : Nat) × Course (Option F) n}
    (hc : Accepted True nums c.2) (hreads : Reads nums (writecourse nums c.2) c')
    (hsame : SameCourse nums c.2 c'.2) :
    Worded c.2 ∧ RereadableCourse c.2 := by
  have hwords : Worded c.2 :=
    .of_same hsame (hreads.accepted False fun b hb hzero => nulFree_writecourse hnums hc b hb hzero)
  obtain ⟨bound, hfits⟩ := exists_fits c.2
  obtain ⟨rounds, r, hrun, hclean⟩ := hreads
  have hmore := extends_readfile nums (Nat.le_add_right rounds bound) _ c' r hrun
  have hrecovers := readfile_recovers hnums (hc.of_worded hwords)
    (hfits (rounds + bound) (Nat.le_add_left _ _))
  refine ⟨hwords, ?_⟩
  by_contra hbad
  exact hrecovers.2 hbad c' r hmore hclean hsame

theorem Accepted.reread (hnums : Lawful nums) {c : (n : Nat) × Course (Option F) n}
    (hc : Accepted True nums c.2) (hwords : Worded c.2) (hgood : RereadableCourse c.2) :
    ∃ c', Reads nums (writecourse nums c.2) c' ∧ SameCourse nums c.2 c'.2 := by
  obtain ⟨bound, hfits⟩ := exists_fits c.2
  have hrecovers := readfile_recovers hnums (hc.of_worded hwords) (hfits bound (Nat.le_refl _))
  obtain ⟨c', r, hrun, hsame, hat⟩ := hrecovers.1 hgood
  exact ⟨c', ⟨bound, r, hrun, hat.errors⟩, hsame⟩

theorem Reads.rereadable (hnums : Lawful nums) {text : List Byte}
    {c c' : (n : Nat) × Course (Option F) n} (h : Reads nums text c)
    (hreads : Reads nums (writecourse nums c.2) c') (hsame : SameCourse nums c.2 c'.2) :
    Worded c.2 ∧ RereadableCourse c.2 :=
  (h.accepted True fun _ _ _ => trivial).rereadable hnums hreads hsame

theorem Reads.reread (hnums : Lawful nums) {text : List Byte} {c : (n : Nat) × Course (Option F) n}
    (h : Reads nums text c) (hwords : Worded c.2) (hgood : RereadableCourse c.2) :
    ∃ c', Reads nums (writecourse nums c.2) c' ∧ SameCourse nums c.2 c'.2 :=
  (h.accepted True fun _ _ _ => trivial).reread hnums hwords hgood

-- The whole numbers up to a hundred.
def percents : Numbers (Fin 101) where
  zero := 0
  one := 1
  hundred := 100
  isZero x := x = 0
  lt x y := x < y
  print x := showNat 10 x ++ ascii ".000000"
  scan t :=
    let digits := t.takeWhile (isDigit 10)
    if h : digits ≠ [] ∧ readNat 10 digits < 101 then some ⟨readNat 10 digits, h.2⟩ else none

theorem lawful_percents : Lawful percents := by
  have hten : 2 ≤ 10 ∧ 10 ≤ 16 := by decide
  refine ⟨rfl, fun x c hc => ?_, fun x => ⟨by simp [percents, ascii], ?_⟩, fun x => ⟨x, ?_⟩⟩
  · rcases List.mem_append.mp hc with hc | hc
    · obtain ⟨d, hd, rfl⟩ := (showNat_spec hten x).2.1 c hc
      have hdigits : ∀ d < 10, digitChar d ∈ ascii "-.0123456789afin" := by decide
      exact hdigits d hd
    · have hrest : ∀ c ∈ ascii ".000000", c ∈ ascii "-.0123456789afin" := by decide
      exact hrest c hc
  · have hshow : ∀ x : Fin 101, (showNat 10 x).length ≤ 3 := by decide
    have hlength := hshow x
    simp only [percents, ascii, List.length_append, List.length_map]
    simp
    omega
  · obtain ⟨hne, -, hread⟩ := showNat_spec hten x
    have hstops : Stops (ascii ".000000") := by
      intro c hc
      obtain rfl : 46 = c := Option.some.inj hc
      decide
    have htake := (span_showNat hten x hstops).1
    simp only [percents, htake, hread]
    rw [dif_pos ⟨hne, x.isLt⟩]

-- Exactly these courses are read back as they were.
theorem reads_writecourse_iff (hnums : Lawful nums) {text : List Byte}
    {c : (n : Nat) × Course (Option F) n} (h : Reads nums text c) :
    (∃ c', Reads nums (writecourse nums c.2) c' ∧ SameCourse nums c.2 c'.2) ↔
      Worded c.2 ∧ RereadableCourse c.2 := by
  constructor
  · rintro ⟨c', hreads, hsame⟩
    exact h.rereadable hnums hreads hsame
  · rintro ⟨hwords, hgood⟩
    exact h.reread hnums hwords hgood

def quantileText : List Byte :=
  ascii
    "COURSE cse101 Systems\n PROFESSOR Poe, Ann\n ASSIGNMENT hw home\n  WEIGHT 5\n  NORMALIZE QUANTILE BYSECTION\n" ++
    ascii " SECTION one\n  STUDENT 7 Doe, Jo\n   SCORE hw 50\n   SCORE hw USERAW 40 : late\n"

def quantileCourse : Course (Option (Fin 101)) 1 where
  number := ascii "cse101"
  title := ascii "Systems"
  professor := some ⟨ascii "Poe", ascii "Ann"⟩
  assignments := #v[{ freshAssignment percents (ascii "hw") (ascii "home") with
    wpolicy := .weight, weight := some 5, npolicy := .quantile, ngroup := .bysection }]
  sections :=
    let scores := [{ freshScore (Fin.last 0) with flag := .valid, grade := some 50 },
      { freshScore (Fin.last 0) with grade := some 40, code := ascii "late" }]
    [⟨ascii "one", none, [⟨ascii "7", ascii "Doe", ascii "Jo", scores, [], none⟩]⟩]

theorem reads_quantileText : Reads percents quantileText ⟨1, quantileCourse⟩ :=
  ⟨7, ⟨[], [], 64, 10, []⟩, by decide +kernel, rfl⟩

-- The numbers are written with a fraction, and everything is read back.
theorem quantileCourse_reread : ∃ c', Reads percents (writecourse percents quantileCourse) c' ∧
    SameCourse percents quantileCourse c'.2 := by
  refine (reads_writecourse_iff lawful_percents reads_quantileText).mpr ⟨?_, ?_⟩
  · constructor <;> simp [quantileCourse, freshAssignment, ascii]
  · refine ⟨by decide, ?_, ?_, ?_⟩
    · simp [quantileCourse, Unspaced, ascii, iswhitespace]
    · intro a ha
      obtain rfl : a = _ := List.mem_singleton.mp ha
      exact ⟨by decide, fun h => (by cases h), rfl, rfl, fun _ => rfl⟩
    · intro s hs
      obtain rfl : s = _ := List.mem_singleton.mp hs
      refine ⟨by decide, by simp, fun st hst => ?_⟩
      obtain rfl : st = _ := List.mem_singleton.mp hst
      refine ⟨by decide, fun sc hsc => ?_⟩
      rcases List.mem_pair.mp hsc with rfl | rfl
      · exact fun hflag => (by cases hflag)
      · exact fun _ => by decide

def linearText : List Byte := ascii "COURSE a b\n ASSIGNMENT x y\n  NORMALIZE GENLINEAR 5 3\n"

def linearCourse : Course (Option (Fin 101)) 1 where
  number := ascii "a"
  title := ascii "b"
  professor := none
  assignments := #v[{ freshAssignment percents (ascii "x") (ascii "y") with
    npolicy := .linear, mean := some 5, stddev := some 3 }]
  sections := []

theorem reads_linearText : Reads percents linearText ⟨1, linearCourse⟩ :=
  ⟨5, ⟨[], [], 64, 4, []⟩, by decide +kernel, rfl⟩

-- The reader does not know the word that is written for GENLINEAR.
theorem linearCourse_not_reread : Reads percents linearText ⟨1, linearCourse⟩ ∧
    ¬∃ c', Reads percents (writecourse percents linearCourse) c' ∧
      SameCourse percents linearCourse c'.2 := by
  refine ⟨reads_linearText, ?_⟩
  rintro ⟨c', hreads, hsame⟩
  have hgood := (reads_linearText.rereadable lawful_percents hreads hsame).2
  exact (hgood.assignments _ (List.mem_singleton.mpr rfl)).linear rfl

end CSE320.Grades.File
