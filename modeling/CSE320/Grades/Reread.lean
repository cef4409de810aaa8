import CSE320.Grades.Scored

namespace CSE320.Grades.File

open Lib

variable {F : Type} {nums : Numbers F} {rounds n : Nat} {words : List Text} {t rest sp : Text}
  {r : Reader} {asgts asgts' : Vector (Assignment (Option F)) n}

def Unspaced (t : Text) : Prop := ∀ c ∈ t.head?, iswhitespace c = false

instance (t : Text) : Decidable (Unspaced t) :=
  inferInstanceAs (Decidable (∀ c ∈ t.head?, iswhitespace c = false))

theorem eq_trim_iff : t = trim t ↔ Unspaced t := by
  rw [eq_comm, trim]
  cases t with
  | nil => simp [Unspaced]
  | cons c t =>
      by_cases hc : iswhitespace c = true
      · have hlength := (List.dropWhile_sublist (l := t) iswhitespace).length_le
        refine iff_of_false (fun heq => ?_) fun h => ?_
        · rw [List.dropWhile_cons_of_pos hc] at heq
          rw [heq, List.length_cons] at hlength
          omega
        · rw [h c rfl] at hc
          cases hc
      · refine iff_of_true (List.dropWhile_cons_of_neg hc) fun d hd => ?_
        obtain rfl := Option.some.inj hd
        simpa using hc

-- What a student is that has been read. The scores that are computed later are not read.
structure SameStudent {n n' : Nat} (nums : Numbers F) (s : Student (Option F) n)
    (s' : Student (Option F) n') : Prop where
  id : s.id = s'.id
  surname : s.surname = s'.surname
  name : s.name = s'.name
  rawscores : List.Forall₂ (SameScore nums) s.rawscores s'.rawscores

structure RereadableStudent (s : Student (Option F) n) : Prop where
  name : Unspaced s.name
  rawscores : ∀ sc ∈ s.rawscores, RereadableScore sc

structure SameSection {n n' : Nat} (nums : Numbers F) (s : Section (Option F) n)
    (s' : Section (Option F) n') : Prop where
  name : s.name = s'.name
  assistant : s.assistant = s'.assistant
  roster : List.Forall₂ (SameStudent nums) s.roster s'.roster

structure RereadableSection (s : Section (Option F) n) : Prop where
  name : Unspaced s.name
  assistant : ∀ a ∈ s.assistant, Unspaced a.name
  roster : ∀ st ∈ s.roster, RereadableStudent st

theorem readperson_run {α : Type} (person : Text → Text → α) {surname name : Text}
    (hrounds : 0 < rounds) (hsurname : IsWord False surname) (hname : IsLine name)
    (ht : Next words t) (h : At (32 :: (surname ++ (ascii ", " ++ name ++ newline :: t))) r) :
    Runs ((readsurname >>= fun surname => readname rounds >>=
      fun name => pure (some (person surname name))) r)
      (some (person surname (trim name))) (At t) := by
  have hends : EndsWord (ascii ", " ++ name ++ newline :: t) := ⟨44, _, rfl, Or.inl (by decide)⟩
  refine (readword_run (Or.inl h) (leads_word hsurname hends) _).bind fun r₁ h₁ => ?_
  exact (readname_run hrounds h₁ (by decide) hname ht).bind fun r' h' => ⟨r', rfl, h'⟩

theorem readassistant_run {a : Option Assistant} (hrounds : 0 < rounds)
    (ha : ∀ x ∈ a, IsWord False x.surname ∧ IsLine x.name) (ht : Next words t)
    (hkey : ascii "ASSISTANT" ∉ words) (h : Ahead (writeassistant a ++ t) r) :
    Runs (readassistant rounds r) (a.map fun x => { x with name := trim x.name }) (Ahead t) := by
  rw [readassistant]
  cases a with
  | none => exact keyword_next h ht hkey fun r' h' => ⟨r', rfl, h'⟩
  | some x =>
      obtain ⟨hsurname, hname⟩ := ha x rfl
      have htext : writeassistant (some x) ++ t =
          32 :: (ascii "ASSISTANT" ++
            (32 :: (x.surname ++ (ascii ", " ++ x.name ++ newline :: t)))) := by
        simp only [writeassistant, List.append_assoc]
        rfl
      rw [htext] at h
      refine keyword_yes h (leads_word (isWord_keyword (by decide)) (endsWord_blank _)) fun r₁ h₁ =>
        ?_
      obtain ⟨r', hrun, hat⟩ := readperson_run Assistant.mk hrounds hsurname hname ht h₁
      exact ⟨r', hrun, Or.inl hat⟩

theorem readprofessor_run {p : Option Professor} (hrounds : 0 < rounds)
    (hp : ∀ x ∈ p, IsWord False x.surname ∧ IsLine x.name) (ht : Next words t)
    (hkey : ascii "PROFESSOR" ∉ words) (h : Ahead (writeprofessor p ++ t) r) :
    Runs (readprofessor rounds r) (p.map fun x => { x with name := trim x.name }) (Ahead t) := by
  rw [readprofessor]
  cases p with
  | none => exact keyword_next h ht hkey fun r' h' => ⟨r', rfl, h'⟩
  | some x =>
      obtain ⟨hsurname, hname⟩ := hp x rfl
      have htext : writeprofessor (some x) ++ t =
          32 :: (ascii "PROFESSOR" ++
            (32 :: (x.surname ++ (ascii ", " ++ x.name ++ newline :: t)))) := by
        simp only [writeprofessor, List.append_assoc]
        rfl
      rw [htext] at h
      refine keyword_yes h (leads_word (isWord_keyword (by decide)) (endsWord_blank _)) fun r₁ h₁ =>
        ?_
      obtain ⟨r', hrun, hat⟩ := readperson_run Professor.mk hrounds hsurname hname ht h₁
      exact ⟨r', hrun, Or.inl hat⟩

def bodystudent (nums : Numbers F) (asgts : Vector (Assignment (Option F)) n)
    (s : Student (Option F) n) : Text :=
  32 :: (s.id ++ (32 :: (s.surname ++ (ascii ", " ++ s.name ++ newline ::
    s.rawscores.flatMap (writescore nums asgts)))))

theorem writestudent_eq (s : Student (Option F) n) :
    writestudent nums asgts s = [32, 32] ++ (ascii "STUDENT" ++ bodystudent nums asgts s) := by
  rw [writestudent, bodystudent]
  simp only [List.append_assoc]
  rfl

theorem writestudent_leads (s : Student (Option F) n) (t : Text) :
    (writestudent nums asgts s ++ t).head? = some 32 ∧
    Leads (writestudent nums asgts s ++ t) (ascii "STUDENT") (bodystudent nums asgts s ++ t) := by
  rw [writestudent_eq, List.append_assoc, List.append_assoc]
  exact leads_indented _ (by decide) (isWord_keyword (by decide)) _

theorem readstudent_recovers {s : Student (Option F) n} (hnums : Lawful nums)
    (hnames : ∀ i : Fin n, (asgts'.get i).name = (asgts.get i).name)
    (hwords : ∀ i : Fin n, IsWord False (asgts.get i).name) (hs : Enrolled False asgts s)
    (hrounds : s.rawscores.length < rounds)
    (ht : Next [ascii "STUDENT", ascii "SECTION", ascii "FILE"] t)
    (h : At (bodystudent nums asgts s ++ t) r) :
    Recovers Clean (RereadableStudent s) (SameStudent nums s) (readstudent rounds nums asgts' r)
      (Ahead t) := by
  have hpos : 0 < rounds := by omega
  have hbody : bodystudent nums asgts s ++ t =
      32 :: (s.id ++ (32 :: (s.surname ++ (ascii ", " ++ s.name ++ newline ::
      (s.rawscores.flatMap (writescore nums asgts) ++ t))))) := by
    simp only [bodystudent, List.cons_append, List.append_assoc]
  have hends : EndsWord (ascii ", " ++ s.name ++ newline ::
      (s.rawscores.flatMap (writescore nums asgts) ++ t)) :=
    ⟨44, _, rfl, Or.inl (by decide)⟩
  have hnext : Next [ascii "SCORE", ascii "STUDENT",
      ascii "SECTION", ascii "FILE"] (s.rawscores.flatMap (writescore nums asgts) ++ t) :=
    next_flatMap (bodyscore nums asgts) writescore_leads (by decide) (ht.mono (by decide)) _
  rw [hbody] at h
  rw [readstudent]
  refine Recovers.after (readword_run (Or.inl h) (leads_word hs.id (endsWord_blank _)) _)
    fun r₁ h₁ => ?_
  refine Recovers.after (readword_run (Or.inl h₁) (leads_word hs.surname hends) _) fun r₂ h₂ => ?_
  refine Recovers.after (readname_run hpos h₂ (by decide) hs.name hnext) fun r₃ h₃ => ?_
  have hscores := readscores_recovers hpos hnums hnames hwords hs.rawscores ht hrounds (Or.inl h₃)
  refine (hscores.map (p := s.name = trim s.name) fun scores => ?_).congr ?_
  · exact ⟨fun h => ⟨h.rawscores, h.name⟩, fun h => ⟨rfl, rfl, h.2, h.1⟩⟩
  · rw [eq_trim_iff]
    exact ⟨fun h => ⟨h.2, h.1⟩, fun h => ⟨h.rawscores, h.name⟩⟩

-- The rounds are enough for the lists of a section.
structure FitsSection (rounds : Nat) (s : Section (Option F) n) : Prop where
  roster : s.roster.length < rounds
  rawscores : ∀ st ∈ s.roster, st.rawscores.length < rounds

theorem readstudents_recovers {l : List (Student (Option F) n)} (hnums : Lawful nums)
    (hnames : ∀ i : Fin n, (asgts'.get i).name = (asgts.get i).name)
    (hwords : ∀ i : Fin n, IsWord False (asgts.get i).name) (hl : ∀ s ∈ l, Enrolled False asgts s)
    (hscores : ∀ s ∈ l, s.rawscores.length < rounds) (hn : l.length < rounds)
    (ht : Next [ascii "SECTION", ascii "FILE"] t)
    (h : Ahead (l.flatMap (writestudent nums asgts) ++ t) r) :
    Recovers Clean (∀ s ∈ l, RereadableStudent s) (List.Forall₂ (SameStudent nums) l)
      (readstudents rounds nums asgts' r) (Ahead t) := by
  refine many_recovers (bodystudent nums asgts) writestudent_leads (by decide)
    ((returns_readstudent rounds).mono fun _ _ => trivial) l (fun s hs t r ht h => ?_) ht hn h
  exact readstudent_recovers hnums hnames hwords (hl s hs) (hscores s hs) ht h

def bodysection (nums : Numbers F) (asgts : Vector (Assignment (Option F)) n)
    (s : Section (Option F) n) : Text :=
  32 :: (s.name ++ newline ::
    (writeassistant s.assistant ++ s.roster.flatMap (writestudent nums asgts)))

theorem writesection_eq (s : Section (Option F) n) :
    writesection nums asgts s = [32] ++ (ascii "SECTION" ++ bodysection nums asgts s) := by
  rw [writesection, bodysection]
  simp only [List.append_assoc]
  rfl

theorem writesection_leads (s : Section (Option F) n) (t : Text) :
    (writesection nums asgts s ++ t).head? = some 32 ∧
    Leads (writesection nums asgts s ++ t) (ascii "SECTION") (bodysection nums asgts s ++ t) := by
  rw [writesection_eq, List.append_assoc, List.append_assoc]
  exact leads_indented _ (by decide) (isWord_keyword (by decide)) _

theorem next_writeassistant {a : Option Assistant} (hkey : ascii "ASSISTANT" ∈ words)
    (ht : Next words t) :
    Next words (writeassistant a ++ t) := by
  cases a with
  | none => exact ht
  | some a =>
      have htext : writeassistant (some a) ++ t =
          [32] ++ (ascii "ASSISTANT" ++ 32 ::
            (a.surname ++ (ascii ", " ++ a.name ++ newline :: t))) := by
        simp only [writeassistant, List.append_assoc]
        rfl
      rw [htext]
      have hleads := leads_indented [32] (by decide) (isWord_keyword (s := "ASSISTANT") (by decide))
      exact Or.inr ⟨(hleads _).1, _, hkey, _, (hleads _).2⟩

theorem map_trim_assistant {a : Option Assistant} :
    (a = a.map fun x => { x with name := trim x.name }) ↔ ∀ x ∈ a, Unspaced x.name := by
  cases a with
  | none => simp
  | some a =>
      obtain ⟨surname, name⟩ := a
      simp [← eq_trim_iff]

theorem map_trim_professor {p : Option Professor} :
    (p = p.map fun x => { x with name := trim x.name }) ↔ ∀ x ∈ p, Unspaced x.name := by
  cases p with
  | none => simp
  | some p =>
      obtain ⟨surname, name⟩ := p
      simp [← eq_trim_iff]

theorem readsection_recovers {s : Section (Option F) n} (hnums : Lawful nums)
    (hnames : ∀ i : Fin n, (asgts'.get i).name = (asgts.get i).name)
    (hwords : ∀ i : Fin n, IsWord False (asgts.get i).name) (hs : Filled False asgts s)
    (hfits : FitsSection rounds s) (ht : Next [ascii "SECTION", ascii "FILE"] t)
    (h : At (bodysection nums asgts s ++ t) r) :
    Recovers Clean (RereadableSection s) (SameSection nums s) (readsection rounds nums asgts' r)
      (Ahead t) := by
  have hpos : 0 < rounds := Nat.zero_lt_of_lt hfits.roster
  have hbody : bodysection nums asgts s ++ t =
      [32] ++ s.name ++ newline :: (writeassistant s.assistant ++
      (s.roster.flatMap (writestudent nums asgts) ++ t)) := by
    simp only [bodysection, List.cons_append, List.append_assoc, List.nil_append]
  have hroster : Next [ascii "STUDENT", ascii "SECTION", ascii "FILE"]
      (s.roster.flatMap (writestudent nums asgts) ++ t) :=
    next_flatMap (bodystudent nums asgts) writestudent_leads (by decide) (ht.mono (by decide)) _
  have hassistant : Next [ascii "ASSISTANT", ascii "STUDENT", ascii "SECTION", ascii "FILE"]
      (writeassistant s.assistant ++ (s.roster.flatMap (writestudent nums asgts) ++ t)) :=
    next_writeassistant (by decide) (hroster.mono (by decide))
  rw [hbody] at h
  rw [readsection]
  refine Recovers.after (readname_run hpos h (by decide) hs.name hassistant) fun r₁ h₁ => ?_
  refine Recovers.after (readassistant_run hpos hs.assistant hroster (by decide) (Or.inl h₁))
    fun r₂ h₂ => ?_
  have hstudents := readstudents_recovers hnums hnames hwords hs.roster hfits.rawscores
    hfits.roster ht h₂
  refine (hstudents.map (p := s.name = trim s.name ∧
    s.assistant = s.assistant.map fun x => { x with name := trim x.name })
    fun roster => ?_).congr ?_
  · exact ⟨fun h => ⟨h.roster, h.name, h.assistant⟩, fun h => ⟨h.2.1, h.2.2, h.1⟩⟩
  · rw [eq_trim_iff, map_trim_assistant]
    exact ⟨fun h => ⟨h.2.1, h.2.2, h.1⟩, fun h => ⟨h.roster, h.name, h.assistant⟩⟩

theorem readsections_recovers {l : List (Section (Option F) n)} (hnums : Lawful nums)
    (hnames : ∀ i : Fin n, (asgts'.get i).name = (asgts.get i).name)
    (hwords : ∀ i : Fin n, IsWord False (asgts.get i).name) (hl : ∀ s ∈ l, Filled False asgts s)
    (hfits : ∀ s ∈ l, FitsSection rounds s) {m : Nat} (hm : l.length < m)
    (h : Ahead (l.flatMap (writesection nums asgts)) r) :
    Recovers Clean (∀ s ∈ l, RereadableSection s) (List.Forall₂ (SameSection nums) l)
      (readsections rounds nums asgts' m r) (At []) := by
  induction l generalizing m r with
  | nil =>
      obtain ⟨m, rfl⟩ := Nat.exists_eq_add_one.mpr hm
      have hat := h.at fun _ _ => not_leads_nil
      refine Recovers.of_runs (a := []) ⟨r, ?_, hat⟩ (by simp)
      rw [readsections, stateT_bind_of (peek_eof hat), stateT_bind_of (get_run r),
        if_neg (by simp [istoken_at hat])]
      rfl
  | cons s l ih =>
      obtain ⟨m, rfl⟩ := Nat.exists_eq_add_one.mpr (Nat.zero_lt_of_lt hm)
      obtain ⟨hs, hl⟩ := List.forall_mem_cons.mp hl
      obtain ⟨hfit, hfits⟩ := List.forall_mem_cons.mp hfits
      rw [List.flatMap_cons] at h
      have hleads : Leads (writesection nums asgts s ++ l.flatMap (writesection nums asgts))
          (ascii "SECTION")
        (bodysection nums asgts s ++ l.flatMap (writesection nums asgts)) :=
          (writesection_leads s _).2
      have hnext : Next [ascii "SECTION", ascii "FILE"] (l.flatMap (writesection nums asgts)) := by
        have hflat := next_flatMap (bodysection nums asgts) writesection_leads
          (show ascii "SECTION" ∈ [ascii "SECTION", ascii "FILE"] by decide) (Or.inl rfl) l
        rwa [List.append_nil] at hflat
      obtain ⟨r₁, hpeek, h₁⟩ := peek_ahead h hleads
      have hahead : Ahead _ r₁ := Or.inr ⟨_, _, hleads, h₁⟩
      obtain ⟨r₂, hfile, h₂⟩ :=
        checktoken_no hahead hleads (show ascii "SECTION" ≠ ascii "FILE" by decide)
      obtain ⟨r₃, hkey, h₃⟩ := checktoken_yes (Or.inr ⟨_, _, hleads, h₂⟩) hleads
      rw [readsections, stateT_bind_of hpeek, stateT_bind_of (get_run r₁),
        if_pos (istoken_holding h₁), stateT_bind_of hfile, if_neg (by simp),
        stateT_bind_of hkey, if_pos rfl]
      refine Recovers.congr ?_ (List.forall_mem_cons (p := RereadableSection)).symm
      refine Recovers.bind h₃.sound (readsection_recovers hnums hnames hwords hs hfit hnext h₃)
        (returns_readsection rounds) (fun x r₄ hsame h₄ => ?_) fun x => ?_
      · have htail := ih hl hfits (Nat.lt_of_succ_lt_succ hm) h₄
        refine (htail.map (p := SameSection nums s x) fun xs => ?_).congr (and_iff_left hsame)
        rw [List.forall₂_cons, and_comm]
      · refine Ensures.bind (returns_readsections rounds m) fun xs => Ensures.pure fun _ hall => ?_
        exact (List.forall₂_cons.mp hall).1

end CSE320.Grades.File
