import CSE320.Grades.Read
import Mathlib.Data.List.TakeWhile

namespace CSE320.Grades.File

open Lib

-- NUL characters may be in the text.
variable {nul : Prop}

def IsTokenByte (c : Byte) : Prop := iswhitespace c = false ∧ c ≠ newline ∧ c ≠ eof

-- What the reader holds between two of its calls.
structure Sound (nul : Prop) (r : Reader) : Prop where
  size : r.size = 64
  input : ∀ c ∈ r.input, c = 0 → nul
  token : r.token = [] ∨ ∃ t, r.token = t ++ [0] ∧ t ≠ [] ∧ t.length ≤ 63 ∧ ∀ c ∈ t, IsTokenByte c ∧
    (c = 0 → nul)

def Clean (r : Reader) : Prop := r.errors = []

-- A word is empty only where a NUL has cut it off.
def IsWord (nul : Prop) (t : Text) : Prop :=
  (∀ c ∈ t, IsTokenByte c ∧ c ≠ 0) ∧ t.length ≤ 63 ∧ (t = [] → nul)

def IsLine (t : Text) : Prop := (∀ c ∈ t, c ≠ newline ∧ c ≠ eof ∧ c ≠ 0) ∧ t.length ≤ 63

abbrev Returns {α : Type} (nul : Prop) (x : Read α) (post : α → Prop) : Prop :=
  Ensures (Sound nul) Clean x post

variable {α : Type} {p : α → Prop}

theorem Sound.withInput {r : Reader} (h : Sound nul r) {input : List Byte}
    (hsub : ∀ c ∈ input, c ∈ r.input) :
    Sound nul { r with input } := ⟨h.size, fun c hc => h.input c (hsub c hc), h.token⟩

theorem Sound.flushed {r : Reader} (h : Sound nul r) : Sound nul { r with token := [] } :=
  ⟨h.size, h.input, Or.inl rfl⟩

theorem returns_stop {e : Stop} : Returns nul (stop e : Read α) p := Ensures.stop

theorem returns_fatal {text : Text} : Returns nul (fatal text : Read α) p := by
  intro r a r' _ hrun
  cases hrun

-- After an error the reader is not clean.
theorem returns_error {text : Text} : Returns nul (error text) fun _ => False := by
  intro r a r' hr hrun
  obtain ⟨-, rfl⟩ := Prod.mk.inj (Except.ok.inj hrun)
  refine ⟨⟨hr.size, hr.input, hr.token⟩, fun hclean => ?_⟩
  simp [Clean] at hclean

theorem returns_nextline : Returns nul nextline fun _ => True := by
  intro r a r' hr hrun
  obtain ⟨-, rfl⟩ := Prod.mk.inj (Except.ok.inj hrun)
  exact ⟨⟨hr.size, hr.input, hr.token⟩, fun hclean => ⟨hclean, trivial⟩⟩

theorem returns_flushtoken : Returns nul flushtoken fun _ => True := by
  intro r a r' hr hrun
  obtain ⟨-, rfl⟩ := Prod.mk.inj (Except.ok.inj hrun)
  exact ⟨hr.flushed, fun hclean => ⟨hclean, trivial⟩⟩

theorem returns_get : Returns nul get (Sound nul) := by
  intro r a r' hr hrun
  obtain ⟨rfl, rfl⟩ := Prod.mk.inj (Except.ok.inj hrun)
  exact ⟨hr, fun hclean => ⟨hclean, hr⟩⟩

theorem mem_of_mem_skipWhitespace {c : Byte} {input : List Byte} (h : c ∈ skipWhitespace input) :
    c ∈ input := by
  induction input with
  | nil => exact h
  | cons b rest ih =>
      rw [skipWhitespace] at h
      split at h
      · exact List.mem_cons_of_mem _ (ih h)
      · split at h
        · exact List.mem_cons_of_mem _ h
        · exact h

theorem mem_of_mem_skipLine {c : Byte} {input rest : List Byte} (hskip : skipLine input = some rest)
    (h : c ∈ rest) :
    c ∈ input := by
  induction input with
  | nil => cases hskip
  | cons b input ih =>
      rw [skipLine] at hskip
      split at hskip
      · cases hskip
      · split at hskip
        · obtain rfl := Option.some.inj hskip
          exact List.mem_cons_of_mem _ h
        · exact List.mem_cons_of_mem _ (ih hskip)

-- A reader that differs in the line and in what is left of the input.
def Skipped (r r' : Reader) : Prop :=
  ∃ input line, r' = { r with input, line } ∧ ∀ c ∈ input, c ∈ r.input

theorem Skipped.refl (r : Reader) : Skipped r r := ⟨r.input, r.line, rfl, fun _ => id⟩

theorem Skipped.trans {r₁ r₂ r₃ : Reader} (h : Skipped r₁ r₂) (h' : Skipped r₂ r₃) :
    Skipped r₁ r₃ := by
  obtain ⟨input, line, rfl, hsub⟩ := h
  obtain ⟨input', line', rfl, hsub'⟩ := h'
  exact ⟨input', line', rfl, fun c hc => hsub c (hsub' c hc)⟩

theorem Skipped.sound {r r' : Reader} (h : Skipped r r') (hr : Sound nul r) : Sound nul r' := by
  obtain ⟨input, line, rfl, hsub⟩ := h
  exact ⟨hr.size, fun c hc => hr.input c (hsub c hc), hr.token⟩

theorem Skipped.clean {r r' : Reader} (h : Skipped r r') (hr : Clean r') : Clean r := by
  obtain ⟨input, line, rfl, -⟩ := h
  exact hr

theorem skipped_scanAhead {unfinished : String} {r r' : Reader}
    (h : scanAhead unfinished r = .ok ((), r')) :
    Skipped r r' := by
  rw [scanAhead] at h
  split at h
  · cases h
  · rename_i rest hskip
    obtain ⟨-, rfl⟩ := Prod.mk.inj (Except.ok.inj h)
    exact ⟨rest, r.line, rfl, fun c hc => mem_of_mem_skipLine hskip hc⟩

theorem skipped_gobblewhitespace {r r' : Reader} (h : gobblewhitespace r = .ok ((), r')) :
    Skipped r r' := by
  rw [gobblewhitespace] at h
  split at h
  · obtain ⟨-, rfl⟩ := Prod.mk.inj (Except.ok.inj h)
    exact .refl _
  · obtain ⟨-, rfl⟩ := Prod.mk.inj (Except.ok.inj h)
    exact ⟨_, r.line, rfl, fun c hc => mem_of_mem_skipWhitespace hc⟩

-- A character is read, and it is put back unless it was EOF.
theorem skipped_getc {c : Option Byte} {r r' : Reader} (h : getc r = .ok (c, r')) :
    Skipped r r' ∧ Skipped r { r' with input := c.toList ++ r'.input } := by
  rw [getc] at h
  split at h
  · obtain ⟨rfl, rfl⟩ := Prod.mk.inj (Except.ok.inj h)
    exact ⟨.refl r, .refl r⟩
  · rename_i b rest hinput
    obtain ⟨rfl, rfl⟩ := Prod.mk.inj (Except.ok.inj h)
    have hrest (d : Byte) (hd : d ∈ rest) : d ∈ r.input := by
      rw [hinput]
      exact List.mem_cons_of_mem _ hd
    refine ⟨⟨rest, r.line, rfl, hrest⟩, ?_⟩
    split
    · exact ⟨rest, r.line, rfl, hrest⟩
    · exact ⟨b :: rest, r.line, rfl, fun d hd => hinput ▸ hd⟩

theorem skipped_blankLines {rounds : Nat} {r r' : Reader} (h : blankLines rounds r = .ok ((), r')) :
    Skipped r r' := by
  induction rounds generalizing r with
  | zero => cases h
  | succ rounds ih =>
      rw [blankLines] at h
      obtain ⟨c, r₁, hgetc, h⟩ := stateT_bind_ok h
      obtain ⟨hread, hback⟩ := skipped_getc hgetc
      split at h
      · obtain ⟨⟨⟩, r₂, hcomment, h⟩ := stateT_bind_ok h
        obtain ⟨⟨⟩, r₃, hline, h⟩ := stateT_bind_ok h
        obtain ⟨-, rfl⟩ := Prod.mk.inj (Except.ok.inj hline)
        exact (hread.trans (skipped_scanAhead hcomment)).trans
          (Skipped.trans ⟨_, _, rfl, fun _ => id⟩ (ih h))
      · obtain ⟨⟨⟩, r₂, hunget, h⟩ := stateT_bind_ok h
        obtain ⟨-, rfl⟩ := Prod.mk.inj (Except.ok.inj hunget)
        obtain ⟨c', r₃, hgetc', h⟩ := stateT_bind_ok h
        obtain ⟨hread', hback'⟩ := skipped_getc hgetc'
        split at h
        · obtain ⟨⟨⟩, r₄, hline, h⟩ := stateT_bind_ok h
          obtain ⟨-, rfl⟩ := Prod.mk.inj (Except.ok.inj hline)
          obtain ⟨⟨⟩, r₅, hgobble, h⟩ := stateT_bind_ok h
          have hskip : Skipped r₃ r₅ :=
            Skipped.trans ⟨_, _, rfl, fun _ => id⟩ (skipped_gobblewhitespace hgobble)
          exact ((hback.trans hread').trans hskip).trans (ih h)
        · obtain ⟨-, rfl⟩ := Prod.mk.inj (Except.ok.inj h)
          exact hback.trans hback'

theorem returns_skipped {x : Read α} (hx : ∀ r a r', x r = .ok (a, r') → Skipped r r') :
    Returns nul x fun _ => True := by
  intro r a r' hr hrun
  have hskip := hx r a r' hrun
  exact ⟨hskip.sound hr, fun hclean => ⟨hskip.clean hclean, trivial⟩⟩

theorem skipped_gobbleblanklines {rounds : Nat} {r r' : Reader}
    (h : gobbleblanklines rounds r = .ok ((), r')) :
    Skipped r r' := by
  rw [gobbleblanklines] at h
  split at h
  · obtain ⟨-, rfl⟩ := Prod.mk.inj (Except.ok.inj h)
    exact .refl _
  · exact skipped_blankLines h

theorem returns_gobbleblanklines (rounds : Nat) :
    Returns nul (gobbleblanklines rounds) fun _ => True :=
  returns_skipped fun _ _ _ h => skipped_gobbleblanklines h

-- The characters that have been put into the buffer.
theorem fillToken_spec {ends : Byte → Bool} {input : List Byte} {r r' : Reader} {ended : Bool}
    (hsize : r.size = 64) (htoken : r.token.length ≤ 64)
    (h : fillToken ends input 64 r = .ok (ended, r')) :
    ∃ t rest, r' = { r with input := rest, token := r.token ++ t } ∧ (r.token ++ t).length ≤ 64 ∧
      (∀ c ∈ t, c ∈ input ∧ c ≠ eof ∧ ends c = false) ∧ ∀ c ∈ rest, c ∈ input := by
  induction input generalizing r with
  | nil =>
      obtain ⟨-, rfl⟩ := Prod.mk.inj (Except.ok.inj h)
      exact ⟨[], [], by rw [List.append_nil], by simpa using htoken, by simp, by simp⟩
  | cons c rest ih =>
      rw [fillToken] at h
      split at h
      · obtain ⟨-, rfl⟩ := Prod.mk.inj (Except.ok.inj h)
        exact ⟨[],
          rest, by
          rw [List.append_nil], by simpa using htoken, by simp, fun _ => List.mem_cons_of_mem c⟩
      · rename_i hne
        split at h
        · obtain ⟨-, rfl⟩ := Prod.mk.inj (Except.ok.inj h)
          exact ⟨[],
            c :: rest, by rw [List.append_nil], by simpa using htoken, by simp, fun _ => id⟩
        · rename_i hends
          rw [doublesize, if_neg (by omega)] at h
          obtain ⟨⟨⟨⟩, r₁⟩, hstore, h⟩ := Lib.bind_ok h
          rw [store] at hstore
          split at hstore
          · rename_i hroom
            obtain ⟨-, rfl⟩ := Prod.mk.inj (Except.ok.inj hstore)
            have hlength : (r.token ++ [c]).length ≤ 64 := by
              rw [List.length_append, List.length_singleton]
              omega
            obtain ⟨t, rest', rfl, hlength', ht, hrest⟩ :=
              ih (r := { r with token := r.token ++ [c] }) hsize hlength h
            rw [List.append_assoc] at hlength'
            refine ⟨c :: t, rest', by simp, hlength', fun d hd => ?_, fun d hd => ?_⟩
            · rcases List.mem_cons.mp hd with rfl | hd
              · exact ⟨List.mem_cons_self, hne, by simpa using hends⟩
              · exact ⟨List.mem_cons_of_mem c (ht d hd).1, (ht d hd).2⟩
            · exact List.mem_cons_of_mem c (hrest d hd)
          · cases hstore

theorem returns_checkunread : Returns nul checkunread fun _ => True := by
  refine Ensures.bind returns_get fun r => Ensures.ite (fun _ => ?_) fun _ => ?_
  · exact returns_error.mono fun _ h => h.elim
  · exact Ensures.pure fun _ => trivial

-- What advancetoken and advanceeol have put into the buffer before the NUL.
theorem advance_spec {ends : Byte → Bool} {r r' : Reader} {ended : Bool} (hr : Sound nul r)
    (h : advance ends r = .ok (ended, r')) :
    r'.size = 64 ∧ (∀ c ∈ r'.input, c = 0 → nul) ∧ (Clean r' → Clean r) ∧ r'.token.length ≤ 64 ∧
      ∀ c ∈ r'.token, (c = 0 → nul) ∧ c ≠ eof ∧ ends c = false := by
  rw [advance] at h
  obtain ⟨⟨⟩, r₂, hunread, h⟩ := stateT_bind_ok h
  obtain ⟨⟨⟩, r₃, hflush, h⟩ := stateT_bind_ok h
  obtain ⟨⟨⟩, r₄, hgobble, h⟩ := stateT_bind_ok h
  obtain ⟨hsound, hclean⟩ := returns_checkunread r () r₂ hr hunread
  obtain ⟨-, rfl⟩ := Prod.mk.inj (Except.ok.inj hflush)
  have hskip := skipped_gobblewhitespace hgobble
  have hr₄ := hskip.sound hsound.flushed
  obtain ⟨input, line, rfl, -⟩ := hskip
  obtain ⟨t, rest, rfl, hlength, ht, hrest⟩ := fillToken_spec hr₄.size (by simp) h
  refine ⟨hr₄.size, fun c hc => hr₄.input c (hrest c hc), fun h => (hclean h).1, hlength,
    fun c hc => ?_⟩
  obtain ⟨hmem, heof, hends⟩ := ht c hc
  exact ⟨hr₄.input c hmem, heof, hends⟩

theorem store_ok {c : Byte} {r r' : Reader} (h : store c r = .ok ((), r')) :
    r' = { r with token := r.token ++ [c] } ∧ r.token.length < r.size := by
  rw [store] at h
  split at h
  · rename_i hroom
    obtain ⟨-, rfl⟩ := Prod.mk.inj (Except.ok.inj h)
    exact ⟨rfl, hroom⟩
  · cases h

theorem istoken_iff {r : Reader} : istoken r = true ↔ r.token ≠ [] := by
  simp [istoken]

theorem returns_advancetoken : Returns nul advancetoken fun _ => True := by
  intro r a r' hr h
  rw [advancetoken] at h
  obtain ⟨ended, r₁, hadvance, h⟩ := stateT_bind_ok h
  obtain ⟨hsize, hinput, hclean, hlength, htoken⟩ := advance_spec hr hadvance
  obtain ⟨r₂, r₃, hget, h⟩ := stateT_bind_ok h
  obtain ⟨rfl, rfl⟩ := Prod.mk.inj (Except.ok.inj hget)
  split at h
  · rename_i hsome
    obtain ⟨rfl, hroom⟩ := store_ok h
    refine ⟨⟨hsize, hinput, Or.inr ⟨r₁.token, rfl, istoken_iff.mp hsome, by omega, fun c hc => ?_⟩⟩,
      fun h => ⟨hclean h, trivial⟩⟩
    obtain ⟨hnul, heof, hends⟩ := htoken c hc
    rw [endsToken, Bool.or_eq_false_iff, decide_eq_false_iff_not] at hends
    exact ⟨⟨hends.1, hends.2, heof⟩, hnul⟩
  · rename_i hnone
    obtain ⟨-, rfl⟩ := Prod.mk.inj (Except.ok.inj h)
    rw [istoken_iff, not_not] at hnone
    exact ⟨⟨hsize, hinput, Or.inl hnone⟩, fun h => ⟨hclean h, trivial⟩⟩

theorem returns_peek : Returns nul peek fun _ => True := by
  refine Ensures.bind returns_get fun r => Ensures.ite (fun _ => ?_) fun _ => ?_
  · exact Ensures.pure fun _ => trivial
  · exact returns_advancetoken.mono fun _ _ _ => trivial

theorem returns_checktoken (key : Text) : Returns nul (checktoken key) fun _ => True := by
  refine Ensures.bind returns_peek fun _ => Ensures.bind returns_get fun r =>
    Ensures.ite (fun _ => ?_) fun _ => ?_
  · exact Ensures.bind returns_flushtoken fun _ => Ensures.pure fun _ _ _ => trivial
  · exact Ensures.pure fun _ _ => trivial

theorem returns_expecttoken (key : Text) : Returns nul (expecttoken key) fun _ => True := by
  refine Ensures.bind returns_peek fun _ => Ensures.bind returns_get fun r =>
    Ensures.ite (fun _ => ?_) fun _ => ?_
  · exact returns_flushtoken.mono fun _ _ _ _ => trivial
  · exact returns_error.mono fun _ h => h.elim

theorem cstring_append (t : Text) : cstring (t ++ [0]) = cstring t := by
  induction t with
  | nil => rfl
  | cons c t ih =>
      by_cases hc : c = 0
      · simp [cstring, hc]
      · simp only [cstring, List.cons_append, List.takeWhile_cons] at ih ⊢
        rw [ih]

theorem mem_cstring {c : Byte} {t : Text} (h : c ∈ cstring t) : c ∈ t ∧ c ≠ 0 :=
  ⟨(List.takeWhile_sublist _).subset h, by simpa using List.mem_takeWhile_imp h⟩

theorem cstring_length_le (t : Text) : (cstring t).length ≤ t.length :=
  (List.takeWhile_sublist _).length_le

theorem Sound.word {r : Reader} (h : Sound nul r) (hsome : istoken r = true) :
    IsWord nul (cstring r.token) := by
  rcases h.token with hnone | ⟨t, ht, hne, hlength, hbytes⟩
  · exact absurd hnone (istoken_iff.mp hsome)
  · rw [ht, cstring_append]
    refine ⟨fun c hc => ?_, Nat.le_trans (cstring_length_le t) hlength, fun hempty => ?_⟩
    · obtain ⟨hmem, hzero⟩ := mem_cstring hc
      exact ⟨(hbytes c hmem).1, hzero⟩
    · cases t with
      | nil => exact absurd rfl hne
      | cons c t =>
          refine (hbytes c List.mem_cons_self).2 ?_
          by_contra hzero
          rw [cstring, List.takeWhile_cons_of_pos (by simpa using hzero)] at hempty
          cases hempty

theorem returns_readword (missing : String) : Returns nul (readword missing) (IsWord nul) := by
  refine Ensures.bind returns_peek fun _ => Ensures.bind returns_get fun r =>
    Ensures.ite (fun hsome => ?_) fun _ => ?_
  · exact Ensures.bind returns_flushtoken fun _ => Ensures.pure fun _ hr _ => hr.word hsome
  · exact Ensures.bind returns_error fun _ => Ensures.bind returns_flushtoken fun _ =>
      Ensures.pure fun _ h => h.elim

theorem returns_expectnewline (rounds : Nat) :
    Returns nul (expectnewline rounds) fun _ => True := by
  intro r a r' hr h
  rw [expectnewline] at h
  obtain ⟨⟨⟩, r₁, hgobble, h⟩ := stateT_bind_ok h
  have hskip := skipped_gobblewhitespace hgobble
  have hr₁ := hskip.sound hr
  obtain ⟨c, r₂, hnext, h⟩ := stateT_bind_ok h
  -- the rest of a line that has been given up
  have hahead (s : Reader) (hs : Sound nul { s with token := [] })
      (h : (error (ascii "Expected newline, scanning ahead.") >>= fun _ => flushtoken >>= fun _ =>
        scanAhead "Unexpected EOF." >>= fun _ => nextline) s = .ok (a, r')) : Sound nul r' ∧
          ¬Clean r' := by
    obtain ⟨⟨⟩, s₁, herror, h⟩ := stateT_bind_ok h
    obtain ⟨-, rfl⟩ := Prod.mk.inj (Except.ok.inj herror)
    obtain ⟨⟨⟩, s₂, hflush, h⟩ := stateT_bind_ok h
    obtain ⟨-, rfl⟩ := Prod.mk.inj (Except.ok.inj hflush)
    obtain ⟨⟨⟩, s₃, hscan, h⟩ := stateT_bind_ok h
    obtain ⟨-, rfl⟩ := Prod.mk.inj (Except.ok.inj h)
    obtain ⟨input, line, rfl, hsub⟩ := skipped_scanAhead hscan
    refine ⟨⟨hs.size, fun c hc => hs.input c (hsub c hc), Or.inl rfl⟩, fun hclean => ?_⟩
    simp [Clean] at hclean
  rw [nextchar] at hnext
  split at hnext
  · -- a token is left
    rename_i d token htoken
    obtain ⟨hc, rfl⟩ := Prod.mk.inj (Except.ok.inj hnext)
    subst hc
    rcases hr₁.token with hnone | ⟨t, ht, hne, -, hbytes⟩
    · rw [hnone] at htoken
      cases htoken
    · have hmem : d ∈ t := by
        cases t with
        | nil => exact absurd rfl hne
        | cons b t =>
            rw [htoken] at ht
            rw [(List.cons.inj ht).1]
            exact List.mem_cons_self
      rw [if_neg (hbytes d hmem).1.2.1] at h
      obtain ⟨hsound, hnot⟩ := hahead _ hr₁.flushed h
      exact ⟨hsound, fun hclean => absurd hclean hnot⟩
  · rename_i htoken
    split at hnext
    · cases hnext
    · rename_i d rest hinput
      split at hnext
      · cases hnext
      · obtain ⟨hc, rfl⟩ := Prod.mk.inj (Except.ok.inj hnext)
        subst hc
        have hr₂ : Sound nul { r₁ with input := rest } :=
          hr₁.withInput fun b hb => hinput ▸ List.mem_cons_of_mem d hb
        split at h
        · have hrest := Ensures.bind returns_nextline
            (fun _ => (returns_gobbleblanklines rounds).mono fun _ h _ => h)
            _ _ _ hr₂ h
          exact ⟨hrest.1, fun hclean => ⟨hskip.clean (hrest.2 hclean).1, trivial⟩⟩
        · obtain ⟨hsound, hnot⟩ := hahead _ hr₂.flushed h
          exact ⟨hsound, fun hclean => absurd hclean hnot⟩

theorem returns_expecteof : Returns nul expecteof fun _ => True := by
  intro r a r' hr h
  have herror (s : Reader) (hs : Sound nul s)
      (h : (error (ascii "Expected EOF, skipping excess input.") >>= fun _ => flushtoken) s =
        .ok (a, r')) :
      Sound nul r' ∧ (Clean r' → Clean s ∧ False) :=
    Ensures.bind returns_error (fun _ => returns_flushtoken.mono fun _ _ h => h) s a r' hs h
  rw [expecteof] at h
  obtain ⟨r₀, r₁, hget, h⟩ := stateT_bind_ok h
  obtain ⟨rfl, rfl⟩ := Prod.mk.inj (Except.ok.inj hget)
  split at h
  · obtain ⟨hsound, hnot⟩ := herror _ hr h
    exact ⟨hsound, fun hclean => (hnot hclean).2.elim⟩
  · obtain ⟨c, r₂, hgetc, h⟩ := stateT_bind_ok h
    obtain ⟨hskip, -⟩ := skipped_getc hgetc
    split at h
    · obtain ⟨-, rfl⟩ := Prod.mk.inj (Except.ok.inj h)
      exact ⟨hskip.sound hr, fun hclean => ⟨hskip.clean hclean, trivial⟩⟩
    · obtain ⟨hsound, hnot⟩ := herror _ (hskip.sound hr) h
      exact ⟨hsound, fun hclean => (hnot hclean).2.elim⟩

-- The line that advanceeol has read.
theorem advanceeol_spec {r r' : Reader} (hr : Sound nul r) (h : advanceeol r = .ok ((), r')) :
    istoken r' = true ∧ IsLine (cstring r'.token) ∧ Sound nul { r' with token := [] } ∧
      (Clean r' → Clean r) := by
  rw [advanceeol] at h
  obtain ⟨ended, r₁, hadvance, h⟩ := stateT_bind_ok h
  obtain ⟨hsize, hinput, hclean, -, htoken⟩ := advance_spec hr hadvance
  split at h
  · cases h
  · obtain ⟨rfl, hroom⟩ := store_ok h
    refine ⟨istoken_iff.mpr (by simp), ?_, ⟨hsize, hinput, Or.inl rfl⟩, hclean⟩
    rw [cstring_append]
    refine ⟨fun c hc => ?_, Nat.le_trans (cstring_length_le _) (by omega)⟩
    obtain ⟨hmem, hzero⟩ := mem_cstring hc
    obtain ⟨-, heof, hends⟩ := htoken c hmem
    exact ⟨by simpa using hends, heof, hzero⟩

theorem returns_readcode : Returns nul readcode IsLine := by
  intro r a r' hr h
  rw [readcode] at h
  obtain ⟨⟨⟩, r₁, hline, h⟩ := stateT_bind_ok h
  obtain ⟨-, hisLine, hsound, hclean⟩ := advanceeol_spec hr hline
  obtain ⟨r₀, r₂, hget, h⟩ := stateT_bind_ok h
  obtain ⟨rfl, rfl⟩ := Prod.mk.inj (Except.ok.inj hget)
  obtain ⟨⟨⟩, r₃, hflush, h⟩ := stateT_bind_ok h
  obtain ⟨-, rfl⟩ := Prod.mk.inj (Except.ok.inj hflush)
  obtain ⟨rfl, rfl⟩ := Prod.mk.inj (Except.ok.inj h)
  exact ⟨hsound, fun h => ⟨hclean h, hisLine⟩⟩

theorem returns_readname (rounds : Nat) : Returns nul (readname rounds) IsLine := by
  intro r a r' hr h
  rw [readname] at h
  obtain ⟨⟨⟩, r₁, hline, h⟩ := stateT_bind_ok h
  obtain ⟨hsome, hisLine, hsound, hclean⟩ := advanceeol_spec hr hline
  obtain ⟨r₀, r₂, hget, h⟩ := stateT_bind_ok h
  obtain ⟨rfl, rfl⟩ := Prod.mk.inj (Except.ok.inj hget)
  rw [if_pos hsome] at h
  obtain ⟨⟨⟩, r₃, hflush, h⟩ := stateT_bind_ok h
  obtain ⟨-, rfl⟩ := Prod.mk.inj (Except.ok.inj hflush)
  have hrest := Ensures.bind (returns_expectnewline rounds)
    (fun _ => Ensures.pure (p := fun t => True → IsLine t) fun _ => hisLine) _ _ _ hsound h
  exact ⟨hrest.1, fun h => ⟨hclean (hrest.2 h).1, (hrest.2 h).2⟩⟩

-- The names of a professor or an assistant.
theorem returns_named {β : Type} (key : Text) (rounds : Nat) {make : Text → Text → β}
    {q : β → Prop} (hq : ∀ surname name, IsWord nul surname → IsLine name → q (make surname name)) :
    Returns nul (do
        if ← checktoken key then
          let surname ← readsurname
          let name ← readname rounds
          return some (make surname name)
        else
          return none)
      fun p => ∀ x ∈ p, q x := by
  refine Ensures.bind (returns_checktoken _) fun _ => Ensures.ite (fun _ => ?_) fun _ => ?_
  · refine Ensures.bind (returns_readword _) fun surname =>
      Ensures.bind (returns_readname rounds) fun name => ?_
    refine Ensures.pure fun hname hsurname _ x hx => ?_
    obtain rfl := Option.some.inj hx
    exact hq surname name hsurname hname
  · refine Ensures.pure fun _ x hx => ?_
    cases hx

theorem returns_readprofessor (rounds : Nat) :
    Returns nul (readprofessor rounds) fun p => ∀ x ∈ p, IsWord nul x.surname ∧ IsLine x.name :=
  returns_named _ rounds fun _ _ => And.intro

theorem returns_readassistant (rounds : Nat) :
    Returns nul (readassistant rounds) fun p => ∀ x ∈ p, IsWord nul x.surname ∧ IsLine x.name :=
  returns_named _ rounds fun _ _ => And.intro

theorem returns_many {key : Text} {item : Read α} (hitem : Returns nul item p) (n : Nat) :
    Returns nul (many key item n) fun xs => ∀ x ∈ xs, p x := by
  induction n with
  | zero => exact returns_stop
  | succ n ih =>
      refine Ensures.bind (returns_checktoken key) fun _ => Ensures.ite (fun _ => ?_) fun _ => ?_
      · refine Ensures.bind hitem fun x => Ensures.bind ih fun xs => Ensures.pure fun hxs hx _ => ?_
        exact List.forall_mem_cons.mpr ⟨hx, hxs⟩
      · exact Ensures.pure fun _ => List.forall_mem_nil _

section

variable {F : Type} {nums : Numbers F} (rounds : Nat)

-- The fields that the declarations of an assignment leave.
structure Declared (nul : Prop) (nums : Numbers F) (a : Assignment (Option F)) : Prop where
  name : IsWord nul a.name
  atype : IsWord nul a.atype
  weight : ∃ w, a.weight = some w ∧ (a.wpolicy = .noweight → w = nums.zero)
  max : ∃ m, a.max = some m
  linear : a.npolicy = .linear → (∃ m, a.mean = some m) ∧ ∃ s, a.stddev = some s
  scale : a.npolicy = .scale → ∃ s, a.scale = some s

theorem returns_scannumber : Returns nul (scannumber nums) fun _ => True := by
  intro r a r' hr h
  rw [scannumber] at h
  split at h
  · split at h
    · obtain ⟨-, rfl⟩ := Prod.mk.inj (Except.ok.inj h)
      exact ⟨hr.flushed, fun h => ⟨h, trivial⟩⟩
    · obtain ⟨-, rfl⟩ := Prod.mk.inj (Except.ok.inj h)
      exact ⟨hr, fun h => ⟨h, trivial⟩⟩
  · obtain ⟨-, rfl⟩ := Prod.mk.inj (Except.ok.inj h)
    exact ⟨hr, fun h => ⟨h, trivial⟩⟩

-- A number, or else an error.
theorem returns_number {f : F → α} {text : Text} {y : α} {g : Option F → Read α}
    (hsome : ∀ x, g (some x) = pure (f x)) (hnone : g none = error text >>= fun _ => pure y)
    (hf : ∀ x, p (f x)) :
    Returns nul (scannumber nums >>= g) p := by
  refine Ensures.bind returns_scannumber fun x => ?_
  cases x with
  | none =>
      rw [hnone]
      exact Ensures.bind returns_error fun _ => Ensures.pure fun h => h.elim
  | some x =>
      rw [hsome]
      exact Ensures.pure fun _ => hf x

theorem returns_readparam (missing : String) (default : F) :
    Returns nul (readparam nums missing default) fun _ => True :=
  Ensures.bind returns_advancetoken fun _ => returns_number (fun _ => rfl) rfl fun _ _ => trivial

theorem returns_readvalue (missing : String) : Returns nul (readvalue nums missing) fun _ => True :=
  Ensures.bind returns_peek fun _ => returns_number (fun _ => rfl) rfl fun _ _ => trivial

variable {a : Assignment (Option F)}

theorem returns_readweight (a : Assignment (Option F)) :
    Returns nul (readweight nums a) fun a' => Declared nul nums a → Declared nul nums a' := by
  refine Ensures.bind returns_advancetoken fun _ =>
    returns_number (fun _ => rfl) rfl fun f _ ha => ?_
  exact { ha with weight := ⟨f, rfl, fun h => by cases h⟩ }

theorem returns_readmax (a : Assignment (Option F)) :
    Returns nul (readmax nums a) fun a' => Declared nul nums a → Declared nul nums a' := by
  refine Ensures.bind returns_advancetoken fun _ =>
    returns_number (fun _ => rfl) rfl fun f _ ha => ?_
  exact { ha with max := ⟨f, rfl⟩ }

-- A keyword that is there decides, and otherwise the next one is looked for.
theorem returns_keyword {key : Text} {x y : Read α} (hx : Returns nul x p) (hy : Returns nul y p) :
    Returns nul (checktoken key >>= fun found => if found = true then x else y) p :=
  Ensures.bind (returns_checktoken key) fun _ =>
    Ensures.ite (fun _ => hx.mono fun _ h _ => h) fun _ => hy.mono fun _ h _ => h

theorem returns_normItem (a : Assignment (Option F)) :
    Returns nul (normItem nums a) fun a' => Declared nul nums a →
      ∀ x ∈ a', Declared nul nums x := by
  have hsome {x : Assignment (Option F)} (hx : Declared nul nums a → Declared nul nums x) :
      Declared nul nums a → ∀ y ∈ some x, Declared nul nums y := by
    intro ha y hy
    obtain rfl := Option.some.inj hy
    exact hx ha
  refine returns_keyword (Ensures.pure (hsome fun ha => ?_)) ?_
  · exact { ha with linear := fun h => (by cases h), scale := fun h => (by cases h) }
  refine returns_keyword (Ensures.pure (hsome fun ha => ?_)) ?_
  · exact { ha with linear := fun _ => ⟨⟨_, rfl⟩, ⟨_, rfl⟩⟩, scale := fun h => (by cases h) }
  refine returns_keyword ?_ ?_
  · refine Ensures.bind (returns_readparam _ _) fun mean =>
      Ensures.bind (returns_readparam _ _) fun stddev => ?_
    refine Ensures.pure fun _ _ => hsome fun ha => ?_
    exact { ha with linear := fun _ => ⟨⟨_, rfl⟩, ⟨_, rfl⟩⟩, scale := fun h => (by cases h) }
  refine returns_keyword (Ensures.pure (hsome fun ha => ?_)) ?_
  · exact { ha with linear := fun h => (by cases h), scale := fun h => (by cases h) }
  refine returns_keyword ?_ ?_
  · refine Ensures.bind (returns_readparam _ _) fun scale => Ensures.pure fun _ =>
      hsome fun ha => ?_
    exact { ha with linear := fun h => (by cases h), scale := fun _ => ⟨_, rfl⟩ }
  refine returns_keyword (Ensures.pure (hsome fun ha => ?_)) ?_
  · exact { ha with }
  refine returns_keyword (Ensures.pure (hsome fun ha => ?_)) (Ensures.pure fun _ x hx => ?_)
  · exact { ha with }
  · cases hx

theorem returns_normItems (n : Nat) (found : Bool) (a : Assignment (Option F)) :
    Returns nul (normItems nums n found a) fun b => Declared nul nums a →
      Declared nul nums b.2 := by
  induction n generalizing found a with
  | zero => exact returns_stop
  | succ n ih =>
      refine Ensures.bind (returns_normItem a) fun a' => ?_
      cases a' with
      | none => exact Ensures.pure fun _ ha => ha
      | some a' => exact (ih true a').mono fun b hb ha' ha => hb (ha' ha a' rfl)

theorem returns_readnorm (a : Assignment (Option F)) :
    Returns nul (readnorm rounds nums a) fun a' => Declared nul nums a → Declared nul nums a' := by
  refine Ensures.bind (returns_normItems rounds false a) fun b =>
    Ensures.ite (fun _ => ?_) fun _ => ?_
  · exact Ensures.pure id
  · exact Ensures.bind returns_error fun _ => Ensures.pure fun h => h.elim

theorem returns_declaration (a : Assignment (Option F)) :
    Returns nul (declaration rounds nums a) fun a' => Declared nul nums a →
      ∀ x ∈ a', Declared nul nums x := by
  have hline {x : Read (Assignment (Option F))}
      (hx : Returns nul x fun a' => Declared nul nums a → Declared nul nums a') :
      Returns nul (x >>= fun a => expectnewline rounds >>= fun _ => pure (some a))
        fun a' => Declared nul nums a → ∀ x ∈ a', Declared nul nums x := by
    refine Ensures.bind hx fun a' => Ensures.bind (returns_expectnewline rounds) fun _ => ?_
    refine Ensures.pure fun _ ha' ha x hx => ?_
    obtain rfl := Option.some.inj hx
    exact ha' ha
  refine returns_keyword (hline (returns_readweight a))
    (returns_keyword (hline (returns_readnorm rounds a)) ?_)
  refine returns_keyword (hline (returns_readmax a)) (Ensures.pure fun _ x hx => ?_)
  cases hx

theorem returns_declarations (n : Nat) (a : Assignment (Option F)) :
    Returns nul (declarations rounds nums n a) fun a' => Declared nul nums a →
      Declared nul nums a' := by
  induction n generalizing a with
  | zero => exact returns_stop
  | succ n ih =>
      refine Ensures.bind (returns_declaration rounds a) fun a' => ?_
      cases a' with
      | none => exact Ensures.pure fun _ ha => ha
      | some a' => exact (ih a').mono fun b hb ha' ha => hb (ha' ha a' rfl)

theorem returns_readassignment : Returns nul (readassignment rounds nums) (Declared nul nums) := by
  refine Ensures.bind (returns_readword _) fun name =>
    Ensures.bind (returns_readword _) fun atype => ?_
  refine Ensures.bind (returns_expectnewline rounds) fun _ =>
    (returns_declarations rounds rounds _).mono ?_
  intro a ha _ hatype hname
  exact ha ⟨hname, hatype, ⟨nums.zero, rfl, fun _ => rfl⟩, ⟨nums.zero, rfl⟩, fun h => (by cases h),
    fun h => (by cases h)⟩

theorem returns_readassignments :
    Returns nul (readassignments rounds nums) fun as => ∀ a ∈ as, Declared nul nums a :=
  returns_many (returns_readassignment rounds) rounds

variable {n : Nat} {asgts : Vector (Assignment (Option F)) n}

-- The numbers of a score and its code, by the way it is substituted.
structure Graded (asgts : Vector (Assignment (Option F)) n) (s : Score (Option F) n) : Prop where
  asgt : findassignment asgts (asgts.get s.asgt).name = some s.asgt
  code : IsLine s.code
  grade : s.flag = .valid ∨ s.subst = .useraw → ∃ g, s.grade = some g
  normalized : s.flag = .invalid ∧ s.subst = .usenorm →
    ∃ f, s.qnorm = some f ∧ s.lnorm = some f ∧ s.snorm = some f
  noGrade : s.flag = .invalid ∧ s.subst ≠ .useraw → s.grade = none
  notNormalized : s.flag = .valid ∨ s.subst ≠ .usenorm →
    s.qnorm = none ∧ s.lnorm = none ∧ s.snorm = none

theorem returns_checksubst : Returns nul checksubst fun _ => True := by
  refine returns_keyword (Ensures.pure trivial) (returns_keyword (Ensures.pure trivial) ?_)
  exact returns_keyword (Ensures.pure trivial)
    (returns_keyword (Ensures.pure trivial) (Ensures.pure trivial))

theorem returns_checkrange (asgt : Assignment (Option F)) (f : F) :
    Returns nul (checkrange nums asgt f) fun _ => True := by
  rw [checkrange]
  cases asgt.npolicy with
  | raw => exact Ensures.pure trivial
  | linear => exact Ensures.pure trivial
  | quantile =>
      exact Ensures.ite (fun _ => returns_error.mono fun _ h => h.elim) fun _ =>
      Ensures.pure trivial
  | scale =>
      exact Ensures.ite (fun _ => returns_error.mono fun _ h => h.elim) fun _ =>
      Ensures.pure trivial

theorem returns_readnormalized (asgt : Assignment (Option F)) (s : Score (Option F) n) :
    Returns nul (readnormalized nums asgt s) fun s' =>
      ∃ f, s' = { s with qnorm := some f, lnorm := some f, snorm := some f } := by
  refine Ensures.bind returns_peek fun _ => Ensures.bind returns_scannumber fun x => ?_
  cases x with
  | none => exact Ensures.bind returns_error fun _ => Ensures.pure fun h => h.elim
  | some f =>
      exact Ensures.bind (returns_checkrange asgt f) fun _ => Ensures.pure fun _ _ _ => ⟨f, rfl⟩

theorem returns_readgrade (asgt : Assignment (Option F)) (i : Fin n)
    (hi : findassignment asgts (asgts.get i).name = some i) :
    Returns nul (readgrade nums asgt (freshScore i)) (Graded asgts) := by
  have hempty : IsLine [] := ⟨by simp, by simp⟩
  refine Ensures.bind returns_checksubst fun subst => ?_
  cases subst with
  | none =>
      refine Ensures.bind (returns_readvalue _) fun g => Ensures.pure fun _ _ => ?_
      exact ⟨hi, hempty, fun _ => ⟨g, rfl⟩, by simp, by simp, by simp [freshScore]⟩
  | some subst =>
      cases subst with
      | useraw =>
          refine Ensures.bind (returns_readvalue _) fun g =>
            Ensures.bind returns_readcode fun code => ?_
          refine Ensures.pure fun hcode _ _ => ?_
          exact ⟨hi, hcode, fun _ => ⟨g, rfl⟩, by simp, by simp, by simp [freshScore]⟩
      | usenorm =>
          refine Ensures.bind (returns_readnormalized asgt _) fun s =>
            Ensures.bind returns_readcode fun code => ?_
          refine Ensures.pure fun hcode hs _ => ?_
          obtain ⟨f, rfl⟩ := hs
          exact ⟨hi,
            hcode, by
            simp [freshScore], fun _ => ⟨f, rfl, rfl, rfl⟩, by
            simp [freshScore], by simp [freshScore]⟩
      | uselikeavg =>
          refine Ensures.bind returns_readcode fun code => Ensures.pure fun hcode _ => ?_
          exact ⟨hi,
            hcode, by simp [freshScore], by simp, by simp [freshScore], by simp [freshScore]⟩
      | useclassavg =>
          refine Ensures.bind returns_readcode fun code => Ensures.pure fun hcode _ => ?_
          exact ⟨hi,
            hcode, by simp [freshScore], by simp, by simp [freshScore], by simp [freshScore]⟩

theorem findassignment_name {name : Text} {i : Fin n} (h : findassignment asgts name = some i) :
    (asgts.get i).name = name := by
  have hname := List.find?_some h
  exact of_decide_eq_true hname

theorem returns_readscore : Returns nul (readscore rounds nums asgts) (Graded asgts) := by
  refine Ensures.bind returns_peek fun _ => Ensures.bind returns_get fun r =>
    Ensures.ite (fun _ => ?_) fun _ => ?_
  · cases hfind : findassignment asgts (cstring r.token) with
    | none => exact returns_fatal
    | some i =>
        have hi : findassignment asgts (asgts.get i).name = some i := by
          rw [findassignment_name hfind, hfind]
        refine Ensures.bind returns_flushtoken fun _ =>
          Ensures.bind (returns_readgrade _ i hi) fun s => ?_
        exact Ensures.bind (returns_expectnewline rounds) fun _ => Ensures.pure fun _ hs _ _ _ => hs
  · exact returns_fatal

structure Enrolled (nul : Prop) (asgts : Vector (Assignment (Option F)) n)
    (s : Student (Option F) n) : Prop where
  id : IsWord nul s.id
  surname : IsWord nul s.surname
  name : IsLine s.name
  rawscores : ∀ sc ∈ s.rawscores, Graded asgts sc
  normscores : s.normscores = []
  composite : s.composite = none

theorem returns_readstudent : Returns nul (readstudent rounds nums asgts) (Enrolled nul asgts) := by
  refine Ensures.bind (returns_readword _) fun id =>
    Ensures.bind (returns_readword _) fun surname => ?_
  refine Ensures.bind (returns_readname rounds) fun name => ?_
  refine Ensures.bind (returns_many (returns_readscore rounds) rounds) fun scores => Ensures.pure ?_
  exact fun hscores hname hsurname hid => ⟨hid, hsurname, hname, hscores, rfl, rfl⟩

theorem returns_readstudents :
    Returns nul (readstudents rounds nums asgts) fun ss => ∀ s ∈ ss, Enrolled nul asgts s :=
  returns_many (returns_readstudent rounds) rounds

structure Filled (nul : Prop) (asgts : Vector (Assignment (Option F)) n)
    (s : Section (Option F) n) : Prop where
  name : IsLine s.name
  assistant : ∀ a ∈ s.assistant, IsWord nul a.surname ∧ IsLine a.name
  roster : ∀ st ∈ s.roster, Enrolled nul asgts st

theorem returns_readsection : Returns nul (readsection rounds nums asgts) (Filled nul asgts) := by
  refine Ensures.bind (returns_readname rounds) fun name =>
    Ensures.bind (returns_readassistant rounds) fun a => ?_
  refine Ensures.bind (returns_readstudents rounds) fun roster => Ensures.pure ?_
  exact fun hroster ha hname => ⟨hname, ha, hroster⟩

theorem returns_readsections (m : Nat) :
    Returns nul (readsections rounds nums asgts m) fun ss => ∀ s ∈ ss, Filled nul asgts s := by
  induction m with
  | zero => exact returns_stop
  | succ m ih =>
      refine Ensures.bind returns_peek fun _ => Ensures.bind returns_get fun r =>
        Ensures.ite (fun _ => ?_) fun _ => ?_
      · refine Ensures.mono (returns_keyword returns_stop (returns_keyword ?_ ?_)) fun _ h _ _ => h
        · refine Ensures.bind (returns_readsection rounds) fun s => Ensures.bind ih fun ss =>
            Ensures.pure fun hss hs => ?_
          exact List.forall_mem_cons.mpr ⟨hs, hss⟩
        · exact Ensures.pure (List.forall_mem_nil _)
      · exact Ensures.pure fun _ _ => List.forall_mem_nil _

-- A course that has been read without errors.
structure Accepted (nul : Prop) (nums : Numbers F) (c : Course (Option F) n) : Prop where
  number : IsWord nul c.number
  title : IsLine c.title
  professor : ∀ p ∈ c.professor, IsWord nul p.surname ∧ IsLine p.name
  assignments : ∀ a ∈ c.assignments.toList, Declared nul nums a
  sections : ∀ s ∈ c.sections, Filled nul c.assignments s

theorem returns_readcourse : Returns nul
    (readcourse rounds nums) fun c => Accepted nul nums c.2 := by
  refine Ensures.bind (returns_expecttoken _) fun _ =>
    Ensures.bind (returns_readword _) fun number => ?_
  refine Ensures.bind (returns_readname rounds) fun title =>
    Ensures.bind (returns_readprofessor rounds) fun p => ?_
  refine Ensures.bind (returns_readassignments rounds) fun as => ?_
  refine Ensures.bind (returns_readsections rounds rounds) fun ss => Ensures.pure ?_
  exact fun hss has hp htitle hnumber _ => ⟨hnumber, htitle, hp, has, hss⟩

theorem returns_readfile : Returns nul (readfile rounds nums) fun c => Accepted nul nums c.2 := by
  refine Ensures.bind (returns_gobbleblanklines rounds) fun _ =>
    Ensures.bind (returns_readcourse rounds) fun c => ?_
  refine Ensures.bind (returns_gobbleblanklines rounds) fun _ =>
    Ensures.bind returns_expecteof fun _ => ?_
  exact Ensures.pure fun _ _ hc _ => hc

end

end CSE320.Grades.File
