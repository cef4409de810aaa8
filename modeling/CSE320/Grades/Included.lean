import CSE320.Grades.Include
import CSE320.Grades.RoundTrip

namespace CSE320.Grades.Include

open Lib
open File

-- The text is read as this course, without an error, with what the files hold that it
-- includes.
def ReadsFiles {F : Type} (nums : Numbers F) (fopen : Text → Option (List Byte)) (root : Text)
    (c : (n : Nat) × Course (Option F) n) : Prop :=
  ∃ rounds s, readfile fopen rounds nums root = .ok (c, s) ∧ s.reader.errors = []

section

variable {α β : Type} {x : Read α} {a : α} {r r' : Reader} {prev : List Ifile} {p : α → Prop}
  {rounds : Nat}

theorem current_of (h : x r = .ok (a, r')) (prev : List Ifile) :
    current x ⟨r, prev⟩ = .ok (a, ⟨r', prev⟩) := by
  simp only [current, h]

theorem get_files (s : Files) : (get : ReadFiles Files) s = .ok (s, s) := rfl

theorem bind_congr_state {y : ReadFiles α} {f : α → ReadFiles β} {s s' : Files} (h : y s = y s') :
    (y >>= f) s = (y >>= f) s' := by
  simp only [bind, StateT.bind, h]

-- The message of pushfile for a missing name is never printed.
theorem istoken_advanceeol (h : advanceeol r = .ok ((), r')) : istoken r' = true := by
  rw [advanceeol] at h
  obtain ⟨ended, r₁, -, h⟩ := stateT_bind_ok h
  by_cases hended : ended = true
  · rw [if_pos hended] at h
    cases h
  · rw [if_neg hended, store] at h
    split at h
    · obtain ⟨-, rfl⟩ := Prod.mk.inj (Except.ok.inj h)
      simp [istoken]
    · cases h

theorem filename_eq : filename rounds = readname rounds := by
  funext r
  rw [filename, readname]
  cases h : advanceeol r with
  | error e => rw [stateT_bind_error h, stateT_bind_error h]
  | ok p =>
      have htoken : istoken p.2 = true := istoken_advanceeol h
      rw [stateT_bind_of h, stateT_bind_of h, stateT_bind_of (get_run _),
        stateT_bind_of (get_run _), if_pos htoken, if_pos htoken]

-- What a function promises of the current file it promises of the stack.
abbrev ReturnsFiles (x : ReadFiles α) (p : α → Prop) : Prop :=
  Ensures (fun s => Sound True s.reader) (fun s => Clean s.reader) x p

theorem returns_current (h : Returns True x p) : ReturnsFiles (current x) p := by
  intro s a s' hs hrun
  rw [current] at hrun
  cases hx : x s.reader with
  | error e =>
      rw [hx] at hrun
      cases hrun
  | ok q =>
      rw [hx] at hrun
      obtain ⟨rfl, rfl⟩ := Prod.mk.inj (Except.ok.inj hrun)
      exact h s.reader q.1 q.2 hs hx

theorem findtoken_of (h : peek r = .ok ((), r')) (prev : List Ifile) :
    findtoken prev r =
      if istoken r' then .ok (true, ⟨r', prev⟩)
      else
        match prev with
        | [] => .ok (false, ⟨r', []⟩)
        | f :: prev => findtoken prev (f.resume r') := by
  cases prev with
  | nil =>
      rw [findtoken, h]
      rfl
  | cons f prev =>
      rw [findtoken, h]
      rfl

-- The loop ends in the current file, or it goes on in the one below.
theorem findtoken_ok {found : Bool} {s : Files} (h : findtoken prev r = .ok (found, s)) :
    ∃ r', peek r = .ok ((), r') ∧ (s = ⟨r', prev⟩ ∨
      ∃ f rest, prev = f :: rest ∧ findtoken rest (f.resume r') = .ok (found, s)) := by
  cases hpeek : peek r with
  | error e =>
      cases prev with
      | nil =>
          rw [findtoken, hpeek] at h
          cases h
      | cons f prev =>
          rw [findtoken, hpeek] at h
          cases h
  | ok q =>
      refine ⟨q.2, rfl, ?_⟩
      rw [findtoken_of hpeek] at h
      split at h
      · obtain ⟨-, rfl⟩ := Prod.mk.inj (Except.ok.inj h)
        exact Or.inl rfl
      · cases prev with
        | nil =>
            obtain ⟨-, rfl⟩ := Prod.mk.inj (Except.ok.inj h)
            exact Or.inl rfl
        | cons f prev => exact Or.inr ⟨f, prev, rfl, h⟩

theorem sound_resume (h : Sound True r) (f : Ifile) : Sound True (f.resume r) :=
  ⟨h.size, fun _ _ _ => trivial, h.token⟩

theorem returns_findtoken : ReturnsFiles (fun s => findtoken s.prev s.reader) fun _ => True := by
  intro s found s' hs hrun
  obtain ⟨r, prev⟩ := s
  induction prev generalizing r with
  | nil =>
      obtain ⟨r', hpeek, rfl | ⟨f, rest, hcons, -⟩⟩ := findtoken_ok hrun
      · exact returns_peek r () r' hs hpeek
      · cases hcons
  | cons f prev ih =>
      obtain ⟨r', hpeek, rfl | ⟨f', rest, hcons, hrest⟩⟩ := findtoken_ok hrun
      · exact returns_peek r () r' hs hpeek
      · obtain ⟨rfl, rfl⟩ := List.cons.inj hcons
        obtain ⟨hr', hclean⟩ := returns_peek r () r' hs hpeek
        obtain ⟨hs', hclean'⟩ := ih _ (sound_resume hr' f) hrest
        exact ⟨hs', fun h => hclean (hclean' h).1⟩

variable {fopen : Text → Option (List Byte)}

theorem returns_pushfile : ReturnsFiles (pushfile fopen rounds) fun _ => True := by
  have hname : ReturnsFiles (current (filename rounds)) IsLine := by
    rw [filename_eq]
    exact returns_current (returns_readname rounds)
  refine Ensures.bind hname fun n => ?_
  intro s u s' hs hrun
  rw [stateT_bind_of (get_files s)] at hrun
  cases hopen : fopen n with
  | none =>
      rw [hopen] at hrun
      cases hrun
  | some input =>
      simp only [hopen] at hrun
      obtain ⟨⟨⟩, s₁, hset, hlines⟩ := stateT_bind_ok hrun
      obtain ⟨-, rfl⟩ := Prod.mk.inj (Except.ok.inj hset)
      have hsound : Sound True { s.reader with input, line := 1 } :=
        ⟨hs.size, fun _ _ _ => trivial, hs.token⟩
      obtain ⟨hs', hclean⟩ :=
        returns_current (returns_gobbleblanklines rounds) _ u s' hsound hlines
      exact ⟨hs', fun h => ⟨(hclean h).1, fun _ => trivial⟩⟩

variable {F : Type} {nums : Numbers F} {n : Nat} {asgts : Vector (Assignment (Option F)) n}

theorem returns_sections (m : Nat) :
    ReturnsFiles (readsections fopen rounds nums asgts m) fun ss =>
      ∀ s ∈ ss, Filled True asgts s := by
  induction m with
  | zero => exact returns_current returns_stop
  | succ m ih =>
      refine Ensures.bind returns_findtoken fun found =>
        Ensures.ite (fun _ => ?_) fun _ => Ensures.pure fun _ => List.forall_mem_nil _
      refine Ensures.bind (returns_current (returns_checktoken _)) fun file =>
        Ensures.ite (fun _ => ?_) fun _ => ?_
      · exact Ensures.bind returns_pushfile fun _ => ih.mono fun _ h _ _ _ => h
      · refine Ensures.bind (returns_current (returns_checktoken _)) fun entry =>
          Ensures.ite (fun _ => ?_) fun _ => Ensures.pure fun _ _ _ => List.forall_mem_nil _
        refine Ensures.bind (returns_current (returns_readsection rounds)) fun s =>
          Ensures.bind ih fun ss => Ensures.pure fun hss hs _ _ _ => ?_
        exact List.forall_mem_cons.mpr ⟨hs, hss⟩

theorem returns_course :
    ReturnsFiles (readcourse fopen rounds nums) fun c => Accepted True nums c.2 := by
  refine Ensures.bind (returns_current (returns_expecttoken _)) fun _ =>
    Ensures.bind (returns_current (returns_readword _)) fun number => ?_
  refine Ensures.bind (returns_current (returns_readname rounds)) fun title =>
    Ensures.bind (returns_current (returns_readprofessor rounds)) fun professor => ?_
  refine Ensures.bind (returns_current (returns_readassignments rounds)) fun assignments =>
    Ensures.bind (returns_sections rounds) fun sections => Ensures.pure ?_
  exact fun hsections hassignments hprofessor htitle hnumber _ =>
    ⟨hnumber, htitle, hprofessor, hassignments, hsections⟩

theorem firstfile_keeps (prev : List Ifile) {r : Reader} (hr : Sound True r) :
    Sound True (firstfile prev r).reader ∧ (firstfile prev r).reader.errors = r.errors := by
  induction prev generalizing r with
  | nil => exact ⟨hr, rfl⟩
  | cons f prev ih => exact ih (sound_resume hr f)

theorem returns_skipexcess : ReturnsFiles skipexcess fun _ => False := by
  refine Ensures.bind (returns_current returns_error) fun _ =>
    Ensures.bind (returns_current returns_flushtoken) fun _ => ?_
  intro s u s' hs hrun
  obtain ⟨-, rfl⟩ := Prod.mk.inj (Except.ok.inj hrun)
  obtain ⟨hsound, herrors⟩ := firstfile_keeps s.prev hs
  exact ⟨hsound, fun h => ⟨herrors.symm.trans h, fun _ hfalse => hfalse⟩⟩

theorem returns_getc : Returns True getc fun _ => True := by
  intro r c r' hr hrun
  rw [getc] at hrun
  split at hrun
  · obtain ⟨-, rfl⟩ := Prod.mk.inj (Except.ok.inj hrun)
    exact ⟨hr, fun h => ⟨h, trivial⟩⟩
  · obtain ⟨-, rfl⟩ := Prod.mk.inj (Except.ok.inj hrun)
    exact ⟨⟨hr.size, fun _ _ _ => trivial, hr.token⟩, fun h => ⟨h, trivial⟩⟩

theorem returns_endoffile : ReturnsFiles expecteof fun _ => True := by
  refine Ensures.bind (p := fun _ => True) (fun s a s' hs hrun => ?_) fun s =>
    Ensures.ite (fun _ => returns_skipexcess.mono fun _ h => h.elim) fun _ => ?_
  · obtain ⟨rfl, rfl⟩ := Prod.mk.inj (Except.ok.inj hrun)
    exact ⟨hs, fun h => ⟨h, trivial⟩⟩
  · refine Ensures.bind (returns_current returns_getc) fun c =>
      Ensures.ite (fun _ => ?_) fun _ => ?_
    · exact Ensures.pure fun _ _ => trivial
    · exact returns_skipexcess.mono fun _ h => h.elim

theorem ReadsFiles.accepted {root : Text} {c : (n : Nat) × Course (Option F) n}
    (h : ReadsFiles nums fopen root c) : Accepted True nums c.2 := by
  obtain ⟨rounds, s, hrun, hclean⟩ := h
  rw [readfile] at hrun
  cases hopen : fopen root with
  | none =>
      rw [hopen] at hrun
      cases hrun
  | some input =>
      rw [hopen] at hrun
      have hstart : Sound True (Reader.start input) := ⟨rfl, fun _ _ _ => trivial, Or.inl rfl⟩
      have hread : ReturnsFiles (current (gobbleblanklines rounds) >>= fun _ =>
          readcourse fopen rounds nums >>= fun c => current (gobbleblanklines rounds) >>= fun _ =>
          expecteof >>= fun _ => pure c) fun c => Accepted True nums c.2 := by
        refine Ensures.bind (returns_current (returns_gobbleblanklines rounds)) fun _ =>
          Ensures.bind returns_course fun c => ?_
        refine Ensures.bind (returns_current (returns_gobbleblanklines rounds)) fun _ =>
          Ensures.bind returns_endoffile fun _ => ?_
        exact Ensures.pure fun _ _ hc _ => hc
      exact ((hread ⟨Reader.start input, []⟩ c s hstart hrun).2 hclean).2

end

end CSE320.Grades.Include
