import CSE320.Grades.Included

namespace CSE320.Grades.Include

open Lib
open File

-- The entries behind the assignments, in one file and in those that it includes.
inductive Layout (F : Type) (n : Nat) where
  | done
  | entry (s : Section F n) (rest : Layout F n)
  | file (name : Text) (included rest : Layout F n)

namespace Layout

section

variable {F : Type} {n : Nat}

-- The sections in the order in which they are read.
def sections : Layout F n → List (Section F n)
  | done => []
  | entry s rest => s :: rest.sections
  | file _ included rest => included.sections ++ rest.sections

def size : Layout F n → Nat
  | done => 0
  | entry _ rest => rest.size + 1
  | file _ included rest => rest.size + included.size + 1

end

variable {F : Type} {n : Nat} (nums : Numbers F) (asgts : Vector (Assignment (Option F)) n)

-- What stands in the file itself.
def text : Layout (Option F) n → Text
  | done => []
  | entry s rest => writesection nums asgts s ++ text rest
  | file name _ rest => ascii "  FILE " ++ name ++ newline :: text rest

-- The files that are included are there.
def Stored (fopen : Text → Option (List Byte)) : Layout (Option F) n → Prop
  | done => True
  | entry _ rest => Stored fopen rest
  | file name included rest => IsLine name ∧ fopen (trim name) = some (text nums asgts included) ∧
      Stored fopen included ∧ Stored fopen rest

end Layout

-- The course, with its sections spread over the files.
structure Spread {F : Type} {n : Nat} (nums : Numbers F) (fopen : Text → Option (List Byte))
    (root : Text) (c : Course (Option F) n) (layout : Layout (Option F) n) : Prop where
  sections : layout.sections = c.sections
  root : fopen root =
    some (writecourse nums { c with sections := [] } ++ layout.text nums c.assignments)
  stored : layout.Stored nums c.assignments fopen

section

variable {F : Type} {n : Nat} {nums : Numbers F} {fopen : Text → Option (List Byte)}
  {rounds : Nat} {asgts asgts' : Vector (Assignment (Option F)) n} {r : Reader}
  {name input rest : Text} {words words' : List Text} {prev : List Ifile}

theorem writefile_leads (name t : Text) :
    (ascii "  FILE " ++ name ++ newline :: t).head? = some 32 ∧
      Leads (ascii "  FILE " ++ name ++ newline :: t) (ascii "FILE")
        (32 :: (name ++ newline :: t)) := by
  have htext : ascii "  FILE " ++ name ++ newline :: t =
      [32, 32] ++ (ascii "FILE" ++ 32 :: (name ++ newline :: t)) := by
    rw [List.append_assoc]
    rfl
  rw [htext]
  exact leads_indented _ (by decide) (isWord_keyword (by decide)) _

theorem next_text (layout : Layout (Option F) n) :
    Next [ascii "SECTION", ascii "FILE"] (layout.text nums asgts) := by
  cases layout with
  | done => exact Or.inl rfl
  | entry s rest =>
      obtain ⟨hhead, hleads⟩ : _ ∧ Leads (writesection nums asgts s ++ rest.text nums asgts) _ _ :=
        writesection_leads s (rest.text nums asgts)
      exact Or.inr ⟨hhead, _, List.mem_cons_self, _, hleads⟩
  | file name included rest =>
      have hleads := writefile_leads name (rest.text nums asgts)
      exact Or.inr ⟨hleads.1, _, List.mem_cons_of_mem _ List.mem_cons_self, _, hleads.2⟩

theorem pushfile_run (hrounds : 0 < rounds) (h : At (32 :: (name ++ newline :: rest)) r)
    (hname : IsLine name) (hrest : Next words rest) (hopen : fopen (trim name) = some input)
    (hinput : Next words' input) (prev : List Ifile) :
    ∃ r' line, At input r' ∧
      pushfile fopen rounds ⟨r, prev⟩ = .ok ((), ⟨r', ⟨rest, line⟩ :: prev⟩) := by
  have hname' : At ([32] ++ name ++ newline :: rest) r := h
  obtain ⟨r₁, hrun, h₁⟩ := readname_run hrounds hname' (by decide) hname hrest
  rw [← filename_eq] at hrun
  have hat : At input { r₁ with input, line := 1 } := ⟨rfl, h₁.token, h₁.size, h₁.errors⟩
  have hset : (set (⟨{ r₁ with input, line := 1 }, ⟨r₁.input, r₁.line⟩ :: prev⟩ : Files) :
      ReadFiles Unit) ⟨r₁, prev⟩ =
      .ok ((), ⟨{ r₁ with input, line := 1 }, ⟨rest, r₁.line⟩ :: prev⟩) := by
    rw [← h₁.input]
    rfl
  refine ⟨_, r₁.line, hat, ?_⟩
  rw [pushfile, stateT_bind_of (current_of hrun prev), stateT_bind_of (get_files _), hopen]
  exact (stateT_bind_of hset).trans (current_of (gobbleblanklines_at hat hinput.head hrounds) _)

theorem findtoken_end (h : At [] r) (prev : List Ifile) :
    findtoken prev r =
      match prev with
      | [] => .ok (false, ⟨r, []⟩)
      | f :: prev => findtoken prev (f.resume r) :=
  (findtoken_of (peek_eof h) prev).trans (if_neg (by simp [istoken_at h]))

-- The file below is read on at the end of the current one.
theorem readsections_resume (h : At [] r) (f : Ifile) (prev : List Ifile) (m : Nat) :
    readsections fopen rounds nums asgts m ⟨r, f :: prev⟩ =
      readsections fopen rounds nums asgts m ⟨f.resume r, prev⟩ := by
  cases m with
  | zero => rfl
  | succ m =>
      rw [readsections]
      exact bind_congr_state (findtoken_end h (f :: prev))

theorem readsections_end (h : At [] r) (m : Nat) :
    readsections fopen rounds nums asgts (m + 1) ⟨r, []⟩ = .ok ([], ⟨r, []⟩) := by
  rw [readsections]
  exact (stateT_bind_of (findtoken_end h [])).trans rfl

-- A keyword ahead is found in the current file.
theorem findtoken_ahead {key : Text} {t : Text} (h : Ahead t r) (hleads : Leads t key rest)
    (prev : List Ifile) :
    ∃ r', Holding key rest r' ∧ findtoken prev r = .ok (true, ⟨r', prev⟩) := by
  obtain ⟨r', hpeek, h'⟩ := peek_ahead h hleads
  exact ⟨r', h', (findtoken_of hpeek prev).trans (if_pos (istoken_holding h'))⟩

theorem readsections_file (hrounds : 0 < rounds) (hname : IsLine name)
    (hopen : fopen (trim name) = some input) (hinput : Next words' input)
    (hrest : Next words rest) (h : Ahead (ascii "  FILE " ++ name ++ newline :: rest) r)
    (prev : List Ifile) :
    ∃ r' line, At input r' ∧ ∀ m,
      readsections fopen rounds nums asgts (m + 1) ⟨r, prev⟩ =
        readsections fopen rounds nums asgts m ⟨r', ⟨rest, line⟩ :: prev⟩ := by
  have hleads := (writefile_leads name rest).2
  obtain ⟨r₁, h₁, hfind⟩ := findtoken_ahead h hleads prev
  obtain ⟨r₂, hkey, h₂⟩ := checktoken_yes (Or.inr ⟨_, _, hleads, h₁⟩) hleads
  obtain ⟨r', line, h', hpush⟩ := pushfile_run hrounds h₂ hname hrest hopen hinput prev
  refine ⟨r', line, h', fun m => ?_⟩
  rw [readsections]
  refine (stateT_bind_of hfind).trans ?_
  rw [if_pos rfl, stateT_bind_of (current_of hkey prev), if_pos rfl, stateT_bind_of hpush]

-- What a run has read before goes to the front.
def prepend {α : Type} (ss : List α) (result : Except Stop (List α × Files)) :
    Except Stop (List α × Files) :=
  result.map fun p => (ss ++ p.1, p.2)

theorem prepend_nil {α : Type} (x : Except Stop (List α × Files)) : prepend [] x = x := by
  cases x with
  | error e => rfl
  | ok p => rfl

theorem prepend_append {α : Type} (ss ss' : List α) (x : Except Stop (List α × Files)) :
    prepend ss (prepend ss' x) = prepend (ss ++ ss') x := by
  cases x with
  | error e => rfl
  | ok p => exact congrArg (fun l => Except.ok (l, p.2)) (List.append_assoc ..).symm

theorem readsections_entry (hnums : Lawful nums)
    (hnames : ∀ i : Fin n, (asgts'.get i).name = (asgts.get i).name)
    (hwords : ∀ i : Fin n, IsWord False (asgts.get i).name) {s : Section (Option F) n}
    (hs : Filled False asgts s) (hgood : RereadableSection s) (hfits : FitsSection rounds s)
    (hrest : Next [ascii "SECTION", ascii "FILE"] rest)
    (h : Ahead (writesection nums asgts s ++ rest) r) (prev : List Ifile) :
    ∃ s' r', SameSection nums s s' ∧ Ahead rest r' ∧ ∀ m,
      readsections fopen rounds nums asgts' (m + 1) ⟨r, prev⟩ =
        prepend [s'] (readsections fopen rounds nums asgts' m ⟨r', prev⟩) := by
  have hleads : Leads (writesection nums asgts s ++ rest) (ascii "SECTION")
      (bodysection nums asgts s ++ rest) := (writesection_leads s rest).2
  obtain ⟨r₁, h₁, hfind⟩ := findtoken_ahead h hleads prev
  obtain ⟨r₂, hfile, h₂⟩ := checktoken_no (Or.inr ⟨_, _, hleads, h₁⟩) hleads
    (show ascii "SECTION" ≠ ascii "FILE" by decide)
  obtain ⟨r₃, hkey, h₃⟩ := checktoken_yes (Or.inr ⟨_, _, hleads, h₂⟩) hleads
  obtain ⟨s', r', hrun, hsame, h'⟩ :=
    (readsection_recovers hnums hnames hwords hs hfits hrest h₃).1 hgood
  refine ⟨s', r', hsame, h', fun m => ?_⟩
  rw [readsections]
  refine (stateT_bind_of hfind).trans ?_
  rw [if_pos rfl, stateT_bind_of (current_of hfile prev), if_neg (by simp),
    stateT_bind_of (current_of hkey prev), if_pos rfl, stateT_bind_of (current_of hrun prev)]
  cases hm : readsections fopen rounds nums asgts' m ⟨r', prev⟩ with
  | error e => exact stateT_bind_error hm
  | ok p => exact stateT_bind_of hm

-- The sections of all the files are read in their order, and the file below is read on.
theorem readsections_layout (hrounds : 0 < rounds) (hnums : Lawful nums)
    (hnames : ∀ i : Fin n, (asgts'.get i).name = (asgts.get i).name)
    (hwords : ∀ i : Fin n, IsWord False (asgts.get i).name) {layout : Layout (Option F) n}
    (hstored : layout.Stored nums asgts fopen)
    (hfilled : ∀ s ∈ layout.sections, Filled False asgts s)
    (hgood : ∀ s ∈ layout.sections, RereadableSection s)
    (hfits : ∀ s ∈ layout.sections, FitsSection rounds s)
    (h : Ahead (layout.text nums asgts) r) (prev : List Ifile) :
    ∃ ss r', List.Forall₂ (SameSection nums) layout.sections ss ∧ At [] r' ∧ ∀ m,
      readsections fopen rounds nums asgts' (m + layout.size) ⟨r, prev⟩ =
        prepend ss (readsections fopen rounds nums asgts' m ⟨r', prev⟩) := by
  induction layout generalizing r prev with
  | done => exact ⟨[], r, .nil, h.at fun _ _ => not_leads_nil, fun m => (prepend_nil _).symm⟩
  | entry s rest ih =>
      obtain ⟨hs, hfilled⟩ := List.forall_mem_cons.mp hfilled
      obtain ⟨hsgood, hgood⟩ := List.forall_mem_cons.mp hgood
      obtain ⟨hsfits, hfits⟩ := List.forall_mem_cons.mp hfits
      obtain ⟨s', r₁, hsame, h₁, hentry⟩ :=
        readsections_entry hnums hnames hwords hs hsgood hsfits (next_text rest) h prev
      obtain ⟨ss, r', hall, h', hrest⟩ := ih hstored hfilled hgood hfits h₁ prev
      refine ⟨s' :: ss, r', .cons hsame hall, h', fun m => ?_⟩
      exact (hentry (m + rest.size)).trans
        ((congrArg _ (hrest m)).trans (prepend_append [s'] ss _))
  | file name included rest ihincluded ihrest =>
      obtain ⟨hname, hopen, hstored, hstored'⟩ := hstored
      obtain ⟨hfilled, hfilled'⟩ := List.forall_mem_append.mp hfilled
      obtain ⟨hgood, hgood'⟩ := List.forall_mem_append.mp hgood
      obtain ⟨hfits, hfits'⟩ := List.forall_mem_append.mp hfits
      obtain ⟨r₁, line, h₁, hfile⟩ := readsections_file hrounds hname hopen (next_text included)
        (next_text rest) h prev
      obtain ⟨ss, r₂, hall, h₂, hincluded⟩ :=
        ihincluded hstored hfilled hgood hfits (Or.inl h₁) (⟨rest.text nums asgts, line⟩ :: prev)
      have hresume : At (rest.text nums asgts) ((⟨rest.text nums asgts, line⟩ : Ifile).resume r₂) :=
        ⟨rfl, h₂.token, h₂.size, h₂.errors⟩
      obtain ⟨ss', r', hall', h', hrest⟩ :=
        ihrest hstored' hfilled' hgood' hfits' (Or.inl hresume) prev
      refine ⟨ss ++ ss', r', List.rel_append hall hall', h', fun m => ?_⟩
      rw [Layout.size, ← Nat.add_assoc, ← Nat.add_assoc, hfile, hincluded,
        readsections_resume h₂, hrest, prepend_append]

theorem sections_spread (hnums : Lawful nums) {c : Course (Option F) n}
    (hc : Accepted False nums c) (hgood : RereadableCourse c) (hfits : FitsCourse rounds c)
    {layout : Layout (Option F) n} (hsections : layout.sections = c.sections)
    (hstored : layout.Stored nums c.assignments fopen) (hsize : layout.size < rounds)
    {as : List (Assignment (Option F))}
    (hsame : List.Forall₂ (SameAssignment nums) c.assignments.toList as)
    (h : Ahead (layout.text nums c.assignments) r) :
    ∃ sections r', List.Forall₂ (SameSection nums) c.sections sections ∧ At [] r' ∧
      readsections fopen rounds nums ⟨as.toArray, rfl⟩ rounds ⟨r, []⟩ =
        .ok (sections, ⟨r', []⟩) := by
  have hlength : n = as.length := by rw [← List.Forall₂.length_eq hsame, Vector.length_toList]
  subst hlength
  have hnames (i : Fin as.length) :
      (⟨as.toArray, rfl⟩ : Vector (Assignment (Option F)) as.length)[i].name =
      c.assignments[i].name := by
    have hget := List.Forall₂.get hsame (show i.val < _ by simp) i.isLt
    simpa using hget.name.symm
  have hwords (i : Fin as.length) : IsWord False c.assignments[i].name :=
    (hc.assignments _ (by simp)).name
  obtain ⟨ss, r', hall, h', hread⟩ := readsections_layout (Nat.zero_lt_of_lt hsize) hnums hnames
    hwords hstored (hsections ▸ hc.sections) (hsections ▸ hgood.sections)
    (hsections ▸ hfits.lists) h []
  obtain ⟨left, rfl⟩ := Nat.exists_eq_add_of_lt hsize
  refine ⟨ss, r', hsections ▸ hall, h', ?_⟩
  have hrun := hread (left + 1)
  rw [readsections_end h', show left + 1 + layout.size = layout.size + left + 1 by omega] at hrun
  rw [hrun]
  exact congrArg (fun l => Except.ok (l, _)) (List.append_nil ss)

-- The course is read back from the files as if its sections stood in one.
theorem readcourse_spread (hnums : Lawful nums) {c : Course (Option F) n}
    (hc : Accepted False nums c) (hgood : RereadableCourse c) (hfits : FitsCourse rounds c)
    {layout : Layout (Option F) n} (hsections : layout.sections = c.sections)
    (hstored : layout.Stored nums c.assignments fopen) (hsize : layout.size < rounds)
    (h : At (writecourse nums { c with sections := [] } ++ layout.text nums c.assignments) r) :
    ∃ c' r', SameCourse nums c c'.2 ∧ At [] r' ∧
      readcourse fopen rounds nums ⟨r, []⟩ = .ok (c', ⟨r', []⟩) := by
  have hpos : 0 < rounds := Nat.zero_lt_of_lt hfits.norm
  let asgts := c.assignments.toList.flatMap (writeassignment nums)
  let sections := layout.text nums c.assignments
  have htext : writecourse nums { c with sections := [] } ++ sections = ascii "COURSE" ++
      (32 :: (c.number ++ ([32] ++ c.title ++ newline ::
      (writeprofessor c.professor ++ (asgts ++ sections))))) := by
    simp only [writecourse, List.append_assoc, List.flatMap_nil, List.nil_append]
    rfl
  have hasgts : Next [ascii "ASSIGNMENT", ascii "SECTION", ascii "FILE"] (asgts ++ sections) :=
    next_flatMap (bodyassignment nums) writeassignment_leads (by decide)
      ((next_text layout).mono (by decide)) _
  have hprofessor : Next [ascii "PROFESSOR", ascii "ASSIGNMENT", ascii "SECTION", ascii "FILE"]
      (writeprofessor c.professor ++ (asgts ++ sections)) :=
    next_writeprofessor (by decide) (hasgts.mono (by decide))
  have hlength : c.assignments.toList.length < rounds := by
    rw [Vector.length_toList]
    exact hfits.assignments
  have hkey (t : Text) : Leads (ascii "COURSE" ++ 32 :: t) (ascii "COURSE") (32 :: t) :=
    ⟨⟨[], rfl, by decide⟩, isWord_keyword (by decide), endsWord_blank t⟩
  rw [htext] at h
  obtain ⟨r₁, hcourse, h₁⟩ := expecttoken_run (Or.inl h) (hkey _)
  obtain ⟨r₂, hnumber, h₂⟩ :=
    readword_run (Or.inl h₁) (leads_word hc.number (endsWord_blank _)) "Expected an ID."
  obtain ⟨r₃, htitle, h₃⟩ := readname_run hpos h₂ (by decide) hc.title hprofessor
  obtain ⟨r₄, hprof, h₄⟩ := readprofessor_run hpos hc.professor hasgts (by decide) (Or.inl h₃)
  obtain ⟨as, r₅, hassignments, hsame, h₅⟩ := (readassignments_recovers hfits.norm hnums
    hc.assignments (next_text layout) hlength h₄).1 hgood.assignments
  obtain ⟨ss, r', hall, h', hread⟩ :=
    sections_spread hnums hc hgood hfits hsections hstored hsize hsame h₅
  refine ⟨⟨_, ⟨c.number, trim c.title, c.professor.map fun x => { x with name := trim x.name },
    ⟨as.toArray, rfl⟩, ss⟩⟩, r', ?_, h', ?_⟩
  · exact ⟨rfl, eq_trim_iff.mpr hgood.title, map_trim_professor.mpr hgood.professor, hsame, hall⟩
  · rw [readcourse, stateT_bind_of (current_of hcourse []), readid,
      stateT_bind_of (current_of hnumber []), stateT_bind_of (current_of htitle []),
      stateT_bind_of (current_of hprof []), stateT_bind_of (current_of hassignments [])]
    exact stateT_bind_of hread

theorem expecteof_end (h : At [] r) : expecteof ⟨r, []⟩ = .ok ((), ⟨r, []⟩) := by
  have hgetc : getc r = .ok (none, r) := by rw [getc, h.input]
  rw [expecteof, stateT_bind_of (get_files _), if_neg (by simp [istoken_at h]),
    stateT_bind_of (current_of hgetc []), if_pos ⟨rfl, rfl⟩]
  rfl

theorem readfile_spread (hnums : Lawful nums) {root : Text} {c : Course (Option F) n}
    (hc : Accepted False nums c) (hgood : RereadableCourse c) (hfits : FitsCourse rounds c)
    {layout : Layout (Option F) n} (hspread : Spread nums fopen root c layout)
    (hsize : layout.size < rounds) :
    ∃ c' s, SameCourse nums c c'.2 ∧ readfile fopen rounds nums root = .ok (c', s) ∧
      s.reader.errors = [] := by
  have hpos : 0 < rounds := Nat.zero_lt_of_lt hsize
  let input := writecourse nums { c with sections := [] } ++ layout.text nums c.assignments
  have hat : At input (Reader.start input) := ⟨rfl, rfl, rfl, rfl⟩
  have hhead : ∀ b ∈ input.head?, b ≠ 35 ∧ b ≠ newline ∧ b ≠ eof := by
    have htext : input.head? = some 67 := by
      simp only [input, writecourse, List.append_assoc]
      rfl
    rw [htext]
    decide
  obtain ⟨c', r', hsame, h', hread⟩ :=
    readcourse_spread hnums hc hgood hfits hspread.sections hspread.stored hsize hat
  have hstart := current_of (gobbleblanklines_at hat hhead hpos) []
  have hend := current_of (gobbleblanklines_at h' (by simp) hpos) []
  refine ⟨c', ⟨r', []⟩, hsame, ?_, h'.errors⟩
  rw [readfile, hspread.root]
  refine (stateT_bind_of hstart).trans ((stateT_bind_of hread).trans ?_)
  exact (stateT_bind_of hend).trans ((stateT_bind_of (expecteof_end h')).trans rfl)

-- A course that has been read from any files, and that one file gives back, is given back by
-- the files over which its sections are spread.
theorem spread_reread (hnums : Lawful nums) {fopen' : Text → Option (List Byte)}
    {root root' : Text} {c : (n : Nat) × Course (Option F) n} (h : ReadsFiles nums fopen root c)
    (hone : ∃ c', Reads nums (writecourse nums c.2) c' ∧ SameCourse nums c.2 c'.2)
    {layout : Layout (Option F) c.1} (hspread : Spread nums fopen' root' c.2 layout) :
    ∃ c', ReadsFiles nums fopen' root' c' ∧ SameCourse nums c.2 c'.2 := by
  obtain ⟨one, hreads, hback⟩ := hone
  obtain ⟨hwords, hgood⟩ := h.accepted.rereadable hnums hreads hback
  obtain ⟨bound, hfits⟩ := exists_fits c.2
  have hbound := hfits (bound + layout.size + 1) (by omega)
  obtain ⟨c', s, hsame, hrun, hclean⟩ := readfile_spread hnums (h.accepted.of_worded hwords) hgood
    hbound hspread (by omega)
  exact ⟨c', ⟨_, s, hrun, hclean⟩, hsame⟩

-- One section stands in the root and one in a file that it includes.
def twoFiles (name : Text) : Option (List Byte) :=
  if name = ascii "main" then
    some (ascii "COURSE cse101 Systems\n ASSIGNMENT hw home\n FILE one.dat\n SECTION two\n")
  else if name = ascii "one.dat" then
    some (ascii " SECTION one\n  STUDENT 7 Doe, Jo\n   SCORE hw 100\n")
  else
    none

def sectionOne : Section (Option (Fin 101)) 1 :=
  let scores := [{ freshScore (Fin.last 0) with flag := .valid, grade := some percents.hundred }]
  ⟨ascii "one", none, [⟨ascii "7", ascii "Doe", ascii "Jo", scores, [], none⟩]⟩

def sectionTwo : Section (Option (Fin 101)) 1 := ⟨ascii "two", none, []⟩

def twoSections : Course (Option (Fin 101)) 1 where
  number := ascii "cse101"
  title := ascii "Systems"
  professor := none
  assignments := #v[freshAssignment percents (ascii "hw") (ascii "home")]
  sections := [sectionOne, sectionTwo]

theorem readsFiles_twoFiles : ReadsFiles percents twoFiles (ascii "main") ⟨1, twoSections⟩ :=
  ⟨5, ⟨⟨[], [], 64, 5, []⟩, []⟩, by decide +kernel, rfl⟩

theorem worded_twoSections : Worded twoSections := by
  constructor <;> simp [twoSections, sectionOne, sectionTwo, freshAssignment, ascii]

theorem rereadable_twoSections : RereadableCourse twoSections := by
  refine ⟨by decide, by simp [twoSections], ?_, ?_⟩
  · intro a ha
    obtain rfl : a = _ := List.mem_singleton.mp ha
    exact ⟨by decide, fun _ => rfl, rfl, rfl, fun _ => rfl⟩
  · intro s hs
    rcases List.mem_pair.mp hs with rfl | rfl
    · refine ⟨by decide, by simp [sectionOne], fun st hst => ?_⟩
      obtain rfl : st = _ := List.mem_singleton.mp hst
      refine ⟨by decide, fun sc hsc => ?_⟩
      obtain rfl : sc = _ := List.mem_singleton.mp hsc
      exact fun hflag => (by cases hflag)
    · exact ⟨by decide, by simp [sectionTwo], fun st hst => absurd hst List.not_mem_nil⟩

-- The first section is moved one file further down.
def deepLayout : Layout (Option (Fin 101)) 1 :=
  .file (ascii "a.dat") (.file (ascii "b.dat") (.entry sectionOne .done) .done)
    (.entry sectionTwo .done)

def deepFiles (name : Text) : Option (List Byte) :=
  let text := Layout.text percents twoSections.assignments
  if name = ascii "main" then
    some (writecourse percents { twoSections with sections := [] } ++ text deepLayout)
  else if name = ascii "a.dat" then
    some (text (.file (ascii "b.dat") (.entry sectionOne .done) .done))
  else if name = ascii "b.dat" then some (text (.entry sectionOne .done))
  else none

theorem spread_deepFiles : Spread percents deepFiles (ascii "main") twoSections deepLayout where
  sections := rfl
  root := rfl
  stored := by
    refine ⟨?_, ?_, ⟨?_, ?_, trivial, trivial⟩, trivial⟩
    · simp [IsLine, ascii, newline, eof]
    · rfl
    · simp [IsLine, ascii, newline, eof]
    · rfl

theorem spread_reread_of_two_files :
    ∃ c', ReadsFiles percents deepFiles (ascii "main") c' ∧
      SameCourse percents twoSections c'.2 := by
  have hone := readsFiles_twoFiles.accepted.reread lawful_percents worded_twoSections
    rereadable_twoSections
  exact spread_reread lawful_percents readsFiles_twoFiles hone spread_deepFiles

end

end CSE320.Grades.Include
