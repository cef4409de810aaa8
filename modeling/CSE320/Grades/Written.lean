import CSE320.Grades.Buffer
import CSE320.Grades.Write

namespace CSE320.Grades.File

open Lib

-- The reader stands before a text that it has not looked at.
structure At (t : Text) (r : Reader) : Prop where
  input : r.input = t
  token : r.token = []
  size : r.size = 64
  errors : r.errors = []

-- It has read a word, and a text follows.
structure Holding (word t : Text) (r : Reader) : Prop where
  input : r.input = t
  token : r.token = word ++ [0]
  size : r.size = 64
  errors : r.errors = []

def EndsWord (t : Text) : Prop := ∃ c rest, t = c :: rest ∧ (iswhitespace c = true ∨ c = newline)

-- A text that starts with a word behind separators.
structure Leads (t word rest : Text) : Prop where
  text : ∃ sp, t = sp ++ word ++ rest ∧ ∀ c ∈ sp, iswhitespace c = true
  word : IsWord False word
  rest : EndsWord rest

-- The reader stands before a text, of which it may have read the first word.
def Ahead (t : Text) (r : Reader) : Prop :=
  At t r ∨ ∃ word rest, Leads t word rest ∧ Holding word rest r

-- The end of the file, or an indented line that starts with one of the words.
def Next (words : List Text) (t : Text) : Prop :=
  t = [] ∨ t.head? = some 32 ∧ ∃ word ∈ words, ∃ rest, Leads t word rest

def trim (t : Text) : Text := t.dropWhile iswhitespace

variable {word rest t sp key : Text} {r r' : Reader}

theorem not_whitespace_newline : iswhitespace newline = false := by decide

theorem whitespace_ne_eof {c : Byte} (h : iswhitespace c = true) : c ≠ eof := by
  rintro rfl
  exact absurd h (by decide)

theorem skipWhitespace_append {c : Byte} (ht : ∀ b ∈ t, b ≠ eof) (hc : iswhitespace c = false)
    (heof : c ≠ eof) (rest : Text) : skipWhitespace (t ++ c :: rest) = trim t ++ c :: rest := by
  induction t with
  | nil => simp [skipWhitespace, trim, hc, heof]
  | cons b t ih =>
      obtain ⟨hb, ht⟩ := List.forall_mem_cons.mp ht
      by_cases hspace : iswhitespace b = true
      · rw [List.cons_append, skipWhitespace, if_pos hspace, ih ht, trim, trim,
          List.dropWhile_cons_of_pos hspace]
      · rw [List.cons_append, skipWhitespace, if_neg hspace, if_neg hb, trim,
          List.dropWhile_cons_of_neg hspace]
        rfl

theorem trim_append (hsp : ∀ c ∈ sp, iswhitespace c = true) (t : Text) :
    trim (sp ++ t) = trim t := by
  induction sp with
  | nil => rfl
  | cons c sp ih =>
      obtain ⟨hc, hsp⟩ := List.forall_mem_cons.mp hsp
      rw [List.cons_append, trim, List.dropWhile_cons_of_pos hc]
      exact ih hsp

-- The buffer has room for 64 characters.
theorem fillToken_append {ends : Byte → Bool} {c : Byte} (rest t : Text)
    (ht : ∀ b ∈ t, b ≠ eof ∧ ends b = false) (hc : c ≠ eof) (hends : ends c = true) {r : Reader}
    (hsize : r.size = 64) (hlength : r.token.length ≤ 64) : fillToken ends (t ++ c :: rest) 64 r =
      if r.token.length + t.length ≤ 64 then
        .ok (false, { r with input := c :: rest, token := r.token ++ t })
      else .error .overflow := by
  have hfront (b : Byte) (hb : b ∈ t) : (decide (b ≠ eof) && !ends b) = true := by simp [ht b hb]
  have hwanted : wanted ends (t ++ c :: rest) = t := by
    rw [wanted, List.takeWhile_append_of_pos hfront, List.takeWhile_cons_of_neg (by simp [hends]),
      List.append_nil]
  have hbehind : behind ends (t ++ c :: rest) = (false, c :: rest) := by
    rw [behind, List.dropWhile_append_of_pos hfront, List.dropWhile_cons_of_neg (by simp [hends])]
    exact if_neg hc
  rw [fillToken_eq ends _ hsize hlength, hwanted, hbehind]

theorem checkunread_at (h : At t r) : checkunread r = .ok ((), r) := by
  have hnone : istoken r = false := by simp [istoken, h.token]
  rw [checkunread, stateT_bind_of (show (get : Read Reader) r = .ok (r, r) from rfl), hnone]
  rfl

-- What a line or a word is read up to.
theorem advance_at (ends : Byte → Bool) {c : Byte} (h : At (t ++ c :: rest) r)
    (ht : ∀ b ∈ t, b ≠ eof) (hc : iswhitespace c = false) (heof : c ≠ eof) (line : Text)
    (next : Byte) (rest' : Text) (hsplit : trim t ++ c :: rest = line ++ next :: rest')
    (hline : ∀ b ∈ line, b ≠ eof ∧ ends b = false) (hnext : next ≠ eof) (hends : ends next = true) :
    advance ends r =
      if line.length ≤ 64 then .ok (false, { r with input := next :: rest', token := line })
        else .error .overflow := by
  have hflush : { r with token := [] } = r := by rw [← h.token]
  have hgobble : gobblewhitespace r = .ok ((), { r with input := line ++ next :: rest' }) := by
    rw [gobblewhitespace, if_neg (by simp [istoken, h.token]), h.input,
      skipWhitespace_append ht hc heof, hsplit]
  have hfill := fillToken_append (r := { r with input := line ++ next :: rest' }) rest' line hline
    hnext hends h.size
    (by simp [h.token])
  rw [advance, stateT_bind_of (checkunread_at h),
    stateT_bind_of (show flushtoken r = .ok ((), r) from by
    rw [flushtoken, hflush]), stateT_bind_of hgobble]
  simpa [h.token] using hfill

theorem store_of {c : Byte} (h : r.token.length < r.size) :
    store c r = .ok ((), { r with token := r.token ++ [c] }) :=
  if_pos h

theorem get_run (r : Reader) : (get : Read Reader) r = .ok (r, r) := rfl

theorem EndsWord.cases (h : EndsWord rest) :
    ∃ c rest', rest = c :: rest' ∧ c ≠ eof ∧ endsToken c = true := by
  obtain ⟨c, rest', rfl, hc⟩ := h
  refine ⟨c, rest', rfl, ?_, ?_⟩
  · rcases hc with hc | rfl
    · exact whitespace_ne_eof hc
    · decide
  · rcases hc with hc | rfl
    · rw [endsToken, hc, Bool.true_or]
    · decide

theorem IsWord.head {c : Byte} {t : Text} (h : IsWord False (c :: t)) :
    iswhitespace c = false ∧ c ≠ eof :=
  ⟨(h.1 c List.mem_cons_self).1.1, (h.1 c List.mem_cons_self).1.2.2⟩

-- A word behind blanks is read up to what ends it.
theorem advancetoken_word (h : At (sp ++ word ++ rest) r) (hsp : ∀ c ∈ sp, iswhitespace c = true)
    (hword : IsWord False word) (hrest : EndsWord rest) :
    advancetoken r = .ok ((), { r with input := rest, token := word ++ [0] }) := by
  obtain ⟨next, rest', rfl, hnext, hends⟩ := hrest.cases
  obtain ⟨hbytes, hlength, hne⟩ := hword
  cases word with
  | nil => exact absurd rfl hne
  | cons c w =>
      have hhead := IsWord.head ⟨hbytes, hlength, hne⟩
      have hinput : At (sp ++ c :: (w ++ next :: rest')) r := by simpa using h
      have hadvance := advance_at endsToken hinput (fun b hb => whitespace_ne_eof (hsp b hb))
        hhead.1 hhead.2
        (c :: w) next rest' ?_ (fun b hb => ?_) hnext hends
      · rw [if_pos (by omega)] at hadvance
        rw [advancetoken, stateT_bind_of hadvance, stateT_bind_of (get_run _)]
        have hroom : (c :: w).length < r.size := by
          rw [h.size]
          omega
        exact store_of hroom
      · have htrim := trim_append hsp []
        rw [List.append_nil] at htrim
        rw [htrim]
        rfl
      · obtain ⟨⟨hspace, hnewline, heof⟩, -⟩ := hbytes b hb
        exact ⟨heof, by simp [endsToken, hspace, hnewline]⟩

-- At the end of a line or of the file no word is read.
theorem advancetoken_none (h : At (sp ++ newline :: rest) r)
    (hsp : ∀ c ∈ sp, iswhitespace c = true) :
    advancetoken r = .ok ((), { r with input := newline :: rest }) := by
  have hadvance := advance_at endsToken h (fun b hb => whitespace_ne_eof (hsp b hb))
    not_whitespace_newline (by decide) [] newline rest ?_ (by simp) (by decide) (by decide)
  · rw [if_pos (by simp)] at hadvance
    rw [advancetoken, stateT_bind_of hadvance, stateT_bind_of (get_run _)]
    rw [if_neg (by simp [istoken]), ← h.token]
    rfl
  · have htrim := trim_append hsp []
    rw [List.append_nil] at htrim
    rw [htrim]
    rfl

theorem advancetoken_eof (h : At [] r) : advancetoken r = .ok ((), r) := by
  have hgobble : gobblewhitespace r = .ok ((), r) := by
    rw [gobblewhitespace, if_neg (by simp [istoken, h.token]), h.input]
    simp only [skipWhitespace, ← h.input]
  have hflush : flushtoken r = .ok ((), r) := by simp only [flushtoken, ← h.token]
  have hadvance : advance endsToken r = .ok (true, r) := by
    rw [advance, stateT_bind_of (checkunread_at h), stateT_bind_of hflush, stateT_bind_of hgobble,
      h.input, fillToken]
    simp only [← h.input]
  rw [advancetoken]
  rw [stateT_bind_of hadvance, stateT_bind_of (get_run r), if_neg (by simp [istoken, h.token])]
  rfl

theorem Leads.trim_eq (h : Leads t word rest) : trim t = word ++ rest := by
  obtain ⟨sp, rfl, hsp⟩ := h.text
  rw [List.append_assoc, trim_append hsp]
  obtain ⟨hbytes, hlength, hne⟩ := h.word
  cases word with
  | nil => exact absurd rfl hne
  | cons c w => exact List.dropWhile_cons_of_neg (by simp [(hbytes c List.mem_cons_self).1.1])

theorem Leads.takeWhile_eq (h : Leads t word rest) :
    (trim t).takeWhile (fun c => !endsToken c) = word := by
  obtain ⟨c, rest', rfl, -, hends⟩ := h.rest.cases
  rw [h.trim_eq, List.takeWhile_append_of_pos, List.takeWhile_cons_of_neg (by simp [hends]),
    List.append_nil]
  intro b hb
  obtain ⟨⟨hspace, hnewline, -⟩, -⟩ := h.word.1 b hb
  simp [endsToken, hspace, hnewline]

theorem Leads.unique {word' rest' : Text} (h : Leads t word rest) (h' : Leads t word' rest') :
    word' = word ∧ rest' = rest := by
  have hword : word' = word := by rw [← h.takeWhile_eq, ← h'.takeWhile_eq]
  subst hword
  exact ⟨rfl, List.append_cancel_left (h'.trim_eq.symm.trans h.trim_eq)⟩

theorem not_leads_nil : ¬Leads [] word rest := by
  intro h
  obtain ⟨c, rest', rfl, -, -⟩ := h.rest.cases
  simpa [trim] using h.trim_eq

theorem At.sound (h : At t r) : Sound True r := ⟨h.size, fun _ _ _ => trivial, Or.inl h.token⟩

theorem Ahead.sound (h : Ahead t r) : Sound True r := by
  rcases h with h | ⟨word, rest, hleads, h⟩
  · exact h.sound
  · obtain ⟨hbytes, hlength, hne⟩ := hleads.word
    exact ⟨h.size, fun _ _ _ => trivial,
      Or.inr ⟨word, h.token, hne, hlength, fun c hc => ⟨(hbytes c hc).1, fun _ => trivial⟩⟩⟩

theorem Ahead.at (h : Ahead t r) (hnone : ∀ word rest, ¬Leads t word rest) : At t r := by
  rcases h with h | ⟨word, rest, hleads, -⟩
  · exact h
  · exact absurd hleads (hnone word rest)

theorem istoken_holding (h : Holding word t r) : istoken r = true :=
  istoken_iff.mpr (by simp [h.token])

theorem istoken_at (h : At t r) : istoken r = false := by simp [istoken, h.token]

theorem cstring_word (h : ∀ c ∈ word, c ≠ 0) : cstring (word ++ [0]) = word := by
  rw [cstring_append, cstring, List.takeWhile_eq_self_iff]
  intro c hc
  simpa using h c hc

theorem cstring_holding (h : Holding word t r) (hword : IsWord False word) :
    cstring r.token = word := by
  rw [h.token, cstring_word fun c hc => (hword.1 c hc).2]

theorem Holding.flushed (h : Holding word t r) : At t { r with token := [] } :=
  ⟨h.input, rfl, h.size, h.errors⟩

theorem peek_some (h : istoken r = true) : peek r = .ok ((), r) := by
  rw [peek, stateT_bind_of (get_run r), if_pos h]
  rfl

theorem peek_ahead (h : Ahead t r) (hleads : Leads t word rest) :
    Runs (peek r) () (Holding word rest) := by
  rcases h with h | ⟨word', rest', hleads', h⟩
  · obtain ⟨sp, rfl, hsp⟩ := hleads.text
    refine ⟨{ r with input := rest, token := word ++ [0] }, ?_, ⟨rfl, rfl, h.size, h.errors⟩⟩
    rw [peek, stateT_bind_of (get_run r), if_neg (by simp [istoken_at h])]
    exact advancetoken_word h hsp hleads.word hleads.rest
  · obtain ⟨rfl, rfl⟩ := hleads.unique hleads'
    exact ⟨r, peek_some (istoken_holding h), h⟩

theorem peek_newline (h : At (newline :: t) r) : peek r = .ok ((), r) := by
  rw [peek, stateT_bind_of (get_run r), if_neg (by simp [istoken_at h])]
  have hnone := advancetoken_none (show At ([] ++ newline :: t) r from h) (by simp)
  rw [hnone]
  simp only [← h.input]

theorem peek_eof (h : At [] r) : peek r = .ok ((), r) := by
  rw [peek, stateT_bind_of (get_run r), if_neg (by simp [istoken_at h])]
  exact advancetoken_eof h

-- A keyword that is the next word is taken.
theorem checktoken_yes (h : Ahead t r) (hleads : Leads t key rest) :
    Runs (checktoken key r) true (At rest) := by
  obtain ⟨r₁, hpeek, hholding⟩ := peek_ahead h hleads
  refine ⟨_, ?_, hholding.flushed⟩
  rw [checktoken, stateT_bind_of hpeek, stateT_bind_of (get_run r₁),
    if_pos ⟨istoken_holding hholding, cstring_holding hholding hleads.word⟩]
  rfl

theorem checktoken_no (h : Ahead t r) (hleads : Leads t word rest) (hne : word ≠ key) :
    Runs (checktoken key r) false (Holding word rest) := by
  obtain ⟨r₁, hpeek, hholding⟩ := peek_ahead h hleads
  refine ⟨r₁, ?_, hholding⟩
  rw [checktoken, stateT_bind_of hpeek, stateT_bind_of (get_run r₁),
    if_neg fun hkey => hne ((cstring_holding hholding hleads.word).symm.trans hkey.2)]
  rfl

theorem checktoken_none (h : At t r) (hpeek : peek r = .ok ((), r)) (key : Text) :
    checktoken key r = .ok (false, r) := by
  rw [checktoken, stateT_bind_of hpeek, stateT_bind_of (get_run r), if_neg (by simp [istoken_at h])]
  rfl

theorem checktoken_next {words : List Text} (h : Ahead t r) (ht : Next words t)
    (hkey : key ∉ words) :
    Runs (checktoken key r) false (Ahead t) := by
  rcases ht with rfl | ⟨-, word, hword, rest, hleads⟩
  · have hat := h.at fun _ _ => not_leads_nil
    exact ⟨r, checktoken_none hat (peek_eof hat) key, Or.inl hat⟩
  · obtain ⟨r', hrun, hholding⟩ :=
      checktoken_no h hleads (show word ≠ key from fun heq => hkey (heq ▸ hword))
    exact ⟨r', hrun, Or.inr ⟨word, rest, hleads, hholding⟩⟩

section

variable {α : Type} {x y : Read α} {a : α} {post : Reader → Prop}

theorem keyword_yes (h : Ahead t r) (hleads : Leads t key rest)
    (hx : ∀ r', At rest r' → Runs (x r') a post) :
    Runs ((checktoken key >>= fun b => if b = true then x else y) r) a post :=
  (checktoken_yes h hleads).bind hx

theorem keyword_no (h : Ahead t r) (hleads : Leads t word rest) (hne : word ≠ key)
    (hy : ∀ r', Ahead t r' → Runs (y r') a post) :
    Runs ((checktoken key >>= fun b => if b = true then x else y) r) a post :=
  (checktoken_no h hleads hne).bind fun r' h' => hy r' (Or.inr ⟨word, rest, hleads, h'⟩)

theorem keyword_next {words : List Text} (h : Ahead t r) (ht : Next words t) (hkey : key ∉ words)
    (hy : ∀ r', Ahead t r' → Runs (y r') a post) :
    Runs ((checktoken key >>= fun b => if b = true then x else y) r) a post :=
  (checktoken_next h ht hkey).bind hy

theorem keyword_newline (h : At (newline :: t) r) :
    (checktoken key >>= fun b => if b = true then x else y) r = y r := by
  rw [stateT_bind_of (checktoken_none h (peek_newline h) key), if_neg (by simp)]

end

theorem readword_run (h : Ahead t r) (hleads : Leads t word rest) (missing : String) :
    Runs (readword missing r) word (At rest) := by
  obtain ⟨r₁, hpeek, hholding⟩ := peek_ahead h hleads
  refine ⟨_, ?_, hholding.flushed⟩
  rw [readword, stateT_bind_of hpeek, stateT_bind_of (get_run r₁),
    if_pos (istoken_holding hholding), cstring_holding hholding hleads.word]
  rfl

-- The bytes that the writer puts on a line.
def Printable (t : Text) : Prop := ∀ c ∈ t, c ≠ newline ∧ c ≠ eof ∧ c ≠ 0

theorem mem_trim {c : Byte} (h : c ∈ trim t) : c ∈ t := (List.dropWhile_sublist _).subset h

-- A line that does not fit into the buffer is written behind its end.
theorem advanceeol_run (h : At (t ++ newline :: rest) r) (ht : Printable t) :
    advanceeol r = if (trim t).length ≤ 63 then
      .ok ((), { r with input := newline :: rest, token := trim t ++ [0] })
      else .error .overflow := by
  have hadvance := advance_at (· = newline) h (fun b hb => (ht b hb).2.1) not_whitespace_newline
    (by decide) (trim t) newline rest rfl
      (fun b hb => ⟨(ht b (mem_trim hb)).2.1, by simp [(ht b (mem_trim hb)).1]⟩)
    (by decide) (by simp)
  rw [advanceeol]
  by_cases hfill : (trim t).length ≤ 64
  · rw [if_pos hfill] at hadvance
    rw [stateT_bind_of hadvance, if_neg (by simp)]
    by_cases hroom : (trim t).length ≤ 63
    · rw [if_pos hroom]
      exact store_of (show (trim t).length < r.size by rw [h.size]; omega)
    · rw [if_neg hroom]
      exact if_neg (show ¬(trim t).length < r.size by rw [h.size]; omega)
  · rw [if_neg hfill] at hadvance
    rw [stateT_bind_error hadvance, if_neg (by omega)]

theorem gobblewhitespace_newline (h : At (newline :: t) r) : gobblewhitespace r = .ok ((), r) := by
  have hskip : skipWhitespace (newline :: t) = newline :: t := by
    rw [skipWhitespace, if_neg (by decide), if_neg (by decide)]
  rw [gobblewhitespace, if_neg (by simp [istoken_at h]), h.input, hskip, ← h.input]

-- No line is skipped where one starts that is neither blank nor a comment.
theorem gobbleblanklines_at {rounds : Nat} (h : At t r)
    (ht : ∀ c ∈ t.head?, c ≠ 35 ∧ c ≠ newline ∧ c ≠ eof) (hrounds : 0 < rounds) :
    gobbleblanklines rounds r = .ok ((), r) := by
  obtain ⟨rounds, rfl⟩ := Nat.exists_eq_add_one.mpr hrounds
  rw [gobbleblanklines, if_neg (by simp [istoken_at h]), blankLines]
  cases t with
  | nil =>
      have hgetc : getc r = .ok (none, r) := by rw [getc, h.input]
      have hunget : ungetc none r = .ok ((), r) := rfl
      rw [stateT_bind_of hgetc, if_neg (by simp), stateT_bind_of hunget, stateT_bind_of hgetc,
        if_neg (by simp)]
      exact hunget
  | cons c rest =>
      obtain ⟨hcomment, hnewline, heof⟩ := ht c rfl
      have hgetc : getc r = .ok (some c, { r with input := rest }) := by
        rw [getc, h.input]
        simp only [if_neg heof]
      have hunget : ungetc (some c) { r with input := rest } = .ok ((), r) := by
        rw [ungetc, Option.toList_some, List.singleton_append, ← h.input]
      rw [stateT_bind_of hgetc, if_neg (by simpa using hcomment), stateT_bind_of hunget,
        stateT_bind_of hgetc, if_neg (by simpa using hnewline)]
      exact hunget

theorem Next.head {words : List Text} (h : Next words t) :
    ∀ c ∈ t.head?, c ≠ 35 ∧ c ≠ newline ∧ c ≠ eof := by
  rcases h with rfl | ⟨hhead, -⟩
  · simp
  · intro c hc
    rw [hhead] at hc
    obtain rfl := Option.some.inj hc
    decide

theorem expectnewline_run {words : List Text} {rounds : Nat} (h : At (newline :: rest) r)
    (hrest : Next words rest) (hrounds : 0 < rounds) :
    Runs (expectnewline rounds r) () (At rest) := by
  have hat : At rest { r with input := rest, line := r.line + 1 } :=
    ⟨rfl, h.token, h.size, h.errors⟩
  have hnext : nextchar r = .ok (newline, { r with input := rest }) := by
    rw [nextchar, h.token, h.input]
    simp only [if_neg (show newline ≠ eof by decide)]
  refine ⟨_, ?_, hat⟩
  rw [expectnewline, stateT_bind_of (gobblewhitespace_newline h), stateT_bind_of hnext, if_pos rfl]
  exact gobbleblanklines_at hat hrest.head hrounds

theorem trim_cstring (ht : Printable t) : cstring (trim t ++ [0]) = trim t :=
  cstring_word fun c hc => (ht c (mem_trim hc)).2.2

theorem Printable.append (hsp : ∀ c ∈ sp, iswhitespace c = true) (ht : Printable t) :
    Printable (sp ++ t) := by
  intro c hc
  rcases List.mem_append.mp hc with hc | hc
  · have hspace := hsp c hc
    refine ⟨?_, whitespace_ne_eof hspace, ?_⟩
    · rintro rfl
      exact absurd hspace (by decide)
    · rintro rfl
      exact absurd hspace (by decide)
  · exact ht c hc

theorem length_trim_le (t : Text) : (trim t).length ≤ t.length :=
  (List.dropWhile_sublist _).length_le

-- A name is read back without the separators before it.
theorem readname_run {words : List Text} {rounds : Nat} (hrounds : 0 < rounds)
    (h : At (sp ++ t ++ newline :: rest) r)
    (hsp : ∀ c ∈ sp, iswhitespace c = true) (ht : IsLine t) (hrest : Next words rest) :
    Runs (readname rounds r) (trim t) (At rest) := by
  have hprint : Printable (sp ++ t) := .append hsp ht.1
  have hline := advanceeol_run h hprint
  rw [trim_append hsp, if_pos (Nat.le_trans (length_trim_le t) ht.2)] at hline
  have hholding : Holding (trim t) (newline :: rest)
      { r with input := newline :: rest, token := trim t ++ [0] } :=
    ⟨rfl, rfl, h.size, h.errors⟩
  obtain ⟨r', hnewline, hat⟩ := expectnewline_run hholding.flushed hrest hrounds
  refine ⟨r', ?_, hat⟩
  rw [readname, stateT_bind_of hline, stateT_bind_of (get_run _), if_pos (istoken_holding hholding),
    stateT_bind_of (show flushtoken _ = .ok ((), _) from rfl), stateT_bind_of hnewline,
    hholding.token, trim_cstring ht.1]
  rfl

theorem readcode_run (h : At (t ++ newline :: rest) r) (ht : Printable t) :
    readcode r = if (trim t).length ≤ 63 then .ok (trim t, { r with input := newline :: rest })
      else .error .overflow := by
  have hline := advanceeol_run h ht
  rw [readcode]
  split
  · rename_i hlength
    rw [if_pos hlength] at hline
    rw [stateT_bind_of hline, stateT_bind_of (get_run _),
      stateT_bind_of (show flushtoken _ = .ok ((), _) from rfl), trim_cstring ht, ← h.token]
    rfl
  · rename_i hlength
    rw [if_neg hlength] at hline
    rw [stateT_bind_error hline]

theorem endsWord_blank (t : Text) : EndsWord (32 :: t) := ⟨32, t, rfl, Or.inl rfl⟩

theorem endsWord_newline (t : Text) : EndsWord (newline :: t) := ⟨newline, t, rfl, Or.inr rfl⟩

theorem leads_word (hword : IsWord False word) (hrest : EndsWord rest) :
    Leads (32 :: (word ++ rest)) word rest :=
  ⟨⟨[32], rfl, by decide⟩, hword, hrest⟩

-- The keywords are in capital letters.
theorem isWord_keyword {s : String}
    (h : s.toList ≠ [] ∧ s.toList.length ≤ 63 ∧
      (s.toList.all fun c => 64 < c.toNat ∧ c.toNat < 91) = true) :
    IsWord False (ascii s) := by
  obtain ⟨hne, hlength, hupper⟩ := h
  refine ⟨fun b hb =>
    ?_, by simpa [ascii] using hlength, fun hnil => hne (by simpa [ascii] using hnil)⟩
  obtain ⟨c, hc, rfl⟩ := List.mem_map.mp hb
  obtain ⟨hlo, hhi⟩ : 64 < c.toNat ∧ c.toNat < 91 :=
    of_decide_eq_true (List.all_eq_true.mp hupper c hc)
  have hother (n : Nat) (hn : n ≤ 64 ∨ 91 ≤ n) (hbyte : n < 256) :
      BitVec.ofNat 8 c.toNat ≠ BitVec.ofNat 8 n := by
    intro heq
    have hnat := congrArg BitVec.toNat heq
    rw [BitVec.toNat_ofNat, BitVec.toNat_ofNat] at hnat
    omega
  refine ⟨⟨?_, hother 10 (by omega) (by omega), hother 255 (by omega) (by omega)⟩,
    hother 0 (by omega) (by omega)⟩
  have hcomma := hother 44 (by omega) (by omega)
  have hcolon := hother 58 (by omega) (by omega)
  have hblank := hother 32 (by omega) (by omega)
  have htab := hother 9 (by omega) (by omega)
  have hfeed := hother 12 (by omega) (by omega)
  simp only [iswhitespace, Bool.or_eq_false_iff, decide_eq_false_iff_not]
  refine ⟨?_, hfeed⟩
  simp [ascii]
  exact ⟨hcomma, hcolon, hblank, htab⟩

theorem leads_line (hkey : IsWord False key) (t : Text) :
    Leads (32 :: 32 :: (key ++ 32 :: t)) key (32 :: t) :=
  ⟨⟨[32, 32], rfl, by decide⟩, hkey, endsWord_blank t⟩

-- A line that is indented and starts with a keyword.
theorem leads_indented (sp : Text) (hsp : sp.head? = some 32 ∧ ∀ c ∈ sp, iswhitespace c = true)
    (hkey : IsWord False key) (t : Text) :
    (sp ++ (key ++ 32 :: t)).head? = some 32 ∧ Leads (sp ++ (key ++ 32 :: t)) key (32 :: t) := by
  refine ⟨?_, ⟨⟨sp, (List.append_assoc _ _ _).symm, hsp.2⟩, hkey, endsWord_blank t⟩⟩
  rw [List.head?_append, hsp.1]
  rfl

theorem Next.of_line {words : List Text} (hkey : IsWord False key) (h : key ∈ words) (t : Text) :
    Next words (32 :: 32 :: (key ++ 32 :: t)) := Or.inr ⟨rfl, key, h, 32 :: t, leads_line hkey t⟩

theorem Next.mono {words words' : List Text} (h : Next words t)
    (hsub : ∀ word ∈ words, word ∈ words') :
    Next words' t := by
  rcases h with rfl | ⟨hhead, word, hword, rest, hleads⟩
  · exact Or.inl rfl
  · exact Or.inr ⟨hhead, word, hsub word hword, rest, hleads⟩

theorem spoils_error {text : Text} : Spoils Clean (error text r) := by
  intro u r' hrun hclean
  obtain ⟨-, rfl⟩ := Prod.mk.inj (Except.ok.inj hrun)
  simp [Clean] at hclean

section

variable {α β : Type} {item : Read α} {write : β → Text} {good : β → Prop} {same : β → α → Prop}
  {words : List Text}

theorem next_flatMap (body : β → Text)
    (hwrite : ∀ b t, (write b ++ t).head? = some 32 ∧ Leads (write b ++ t) key (body b ++ t))
    (hkey : key ∈ words) (ht : Next words t) (l : List β) : Next words (l.flatMap write ++ t) := by
  cases l with
  | nil => exact ht
  | cons b l =>
      rw [List.flatMap_cons, List.append_assoc]
      exact Or.inr ⟨(hwrite _ _).1, key, hkey, _, (hwrite _ _).2⟩

-- A list is read back entry by entry. What follows an entry is the next one or what
-- follows the list.
theorem many_recovers (body : β → Text)
    (hwrite : ∀ b t, (write b ++ t).head? = some 32 ∧ Leads (write b ++ t) key (body b ++ t))
    (hkey : key ∉ words) (hret : Returns True item fun _ => True) (l : List β)
    (hitem : ∀ b ∈ l, ∀ t r, Next (key :: words) t → At (body b ++ t) r →
      Recovers Clean (good b) (same b) (item r) (Ahead t)) (ht : Next words t) {n : Nat} (hn :
      l.length < n)
    (hr : Ahead (l.flatMap write ++ t) r) :
    Recovers Clean (∀ b ∈ l, good b) (List.Forall₂ same l) (many key item n r) (Ahead t) := by
  induction l generalizing n r with
  | nil =>
      obtain ⟨n, rfl⟩ := Nat.exists_eq_add_one.mpr hn
      refine Recovers.of_runs (a :=
        []) ((checktoken_next hr ht hkey).bind fun r' h' => ⟨r', rfl, h'⟩) ?_
      simp
  | cons b l ih =>
      obtain ⟨n, rfl⟩ := Nat.exists_eq_add_one.mpr (Nat.zero_lt_of_lt hn)
      obtain ⟨hb, hl⟩ := List.forall_mem_cons.mp hitem
      rw [List.flatMap_cons, List.append_assoc] at hr
      have hnext : Next (key :: words) (l.flatMap write ++ t) :=
        next_flatMap body hwrite List.mem_cons_self (ht.mono fun word => List.mem_cons_of_mem key) l
      have hmany (n : Nat) : Returns True (many key item n) fun _ => True :=
        (returns_many (hret.mono fun _ h => h) n).mono fun _ _ => trivial
      rw [many]
      obtain ⟨r₁, hrun, hat⟩ := checktoken_yes hr (hwrite b _).2
      rw [stateT_bind_of hrun, if_pos rfl]
      refine Recovers.congr ?_ (List.forall_mem_cons (p := good)).symm
      refine Recovers.bind hat.sound (hb _ r₁ hnext hat) hret ?_ ?_
      · intro x r₂ hsame h₂
        have htail := ih hl (Nat.lt_of_succ_lt_succ hn) h₂
        refine (htail.map (p := same b x) fun xs => ?_).congr (and_iff_left hsame)
        rw [List.forall₂_cons, and_comm]
      · intro x
        refine Ensures.bind (hmany n) fun xs => Ensures.pure fun _ hall => ?_
        exact (List.forall₂_cons.mp hall).1

end

section

variable {F : Type} {nums : Numbers F}

-- What %f prints of a number is a word of digits, signs and points, or one for an infinity
-- or for no number, and it can be read as a number.
structure Lawful (nums : Numbers F) : Prop where
  zero : nums.isZero nums.zero = true
  print (x : F) : ∀ c ∈ nums.print x, c ∈ ascii "-.0123456789afin"
  length (x : F) : nums.print x ≠ [] ∧ (nums.print x).length ≤ 63
  scan (x : F) : ∃ y, nums.scan (nums.print x) = some y

-- A number is the same up to what is lost when it is printed. A zero may lose its sign.
def SameNumber (nums : Numbers F) : Option F → Option F → Prop
  | none, y => y = none
  | some _, none => False
  | some x, some y =>
      nums.isZero x = true ∧ nums.isZero y = true ∨ nums.scan (nums.print x) = some y

theorem Lawful.isWord (hnums : Lawful nums) (x : F) : IsWord False (nums.print x) := by
  refine ⟨fun c hc => ?_, (hnums.length x).2, (hnums.length x).1⟩
  have hall : ∀ c ∈ ascii "-.0123456789afin", IsTokenByte c ∧ c ≠ 0 := by
    simp [ascii, IsTokenByte, iswhitespace, newline, eof]
  exact hall c (hnums.print x c hc)

-- A keyword has a letter that no number has.
theorem Lawful.ne_keyword (hnums : Lawful nums) (x : F)
    (hkey : ∃ c ∈ key, c ∉ ascii "-.0123456789afin") :
    nums.print x ≠ key := by
  rintro rfl
  obtain ⟨c, hc, hnot⟩ := hkey
  exact hnot (hnums.print x c hc)

variable {α : Type} {b : α} {post : Reader → Prop} {f : Option F → Read α} {x y : F}

theorem scannumber_run (h : Holding (nums.print x) t r) (hnums : Lawful nums)
    (hy : nums.scan (nums.print x) = some y) :
    Runs (scannumber nums r) (some y) (At t) := by
  refine ⟨_, ?_, h.flushed⟩
  rw [scannumber, if_pos (istoken_holding h), cstring_holding h (hnums.isWord x), hy]

theorem peek_number (h : Ahead t r) (hleads : Leads t (nums.print x) rest) (hnums : Lawful nums)
    (hy : nums.scan (nums.print x) = some y) (hf : ∀ r', At rest r' → Runs (f (some y) r') b post) :
    Runs ((peek >>= fun _ => scannumber nums >>= f) r) b post :=
  (peek_ahead h hleads).bind fun _ h₁ => (scannumber_run h₁ hnums hy).bind hf

theorem advancetoken_number (h : At (32 :: (nums.print x ++ rest)) r) (hrest : EndsWord rest)
    (hnums : Lawful nums) (hy : nums.scan (nums.print x) = some y)
    (hf : ∀ r', At rest r' → Runs (f (some y) r') b post) :
    Runs ((advancetoken >>= fun _ => scannumber nums >>= f) r) b post := by
  have hadvance := advancetoken_word (show At ([32] ++ nums.print x ++ rest) r from h) (by decide)
    (hnums.isWord x) hrest
  refine Runs.bind ⟨_, hadvance, ?_⟩ fun _ h₁ => (scannumber_run h₁ hnums hy).bind hf
  exact ⟨rfl, rfl, h.size, h.errors⟩

end

end CSE320.Grades.File
