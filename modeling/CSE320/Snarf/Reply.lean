import CSE320.Lib.Run
import CSE320.Snarf.Connection
import CSE320.Snarf.Headers

namespace CSE320.Snarf

open Lib (Byte)

-- What a server sends.
structure Reply where
  version : List Byte
  code : BitVec 32
  reason : List Byte
  fields : List (List Byte × List Byte)
  body : List Byte
deriving DecidableEq, Repr

-- Text that ends neither a string nor a line.
def Inline (s : List Byte) : Prop := ∀ c ∈ s, c ≠ 0 ∧ isTerminator c = false

instance decidableInline (s : List Byte) : Decidable (Inline s) :=
  inferInstanceAs (Decidable (∀ c ∈ s, c ≠ 0 ∧ isTerminator c = false))

namespace Reply

def statusLine (r : Reply) : List Byte :=
  Lib.ascii "HTTP/" ++ (r.version ++ 32 :: (Lib.Conversion.dec.print r.code ++ 32 :: r.reason))

def fieldLine (field : List Byte × List Byte) : List Byte := field.1 ++ 58 :: 32 :: field.2

def head (r : Reply) : List Byte :=
  (r.fields.flatMap fun field => fieldLine field ++ crlf) ++ crlf

def text (r : Reply) : List Byte := r.statusLine ++ crlf ++ (r.head ++ r.body)

structure FieldWellFormed (field : List Byte × List Byte) : Prop where
  key : Inline field.1
  value : Inline field.2
  keyStart : field.1.head? ≠ some 32
  colonFree : ∀ c ∈ field.1, c ≠ 58
  valueStart : field.2.head? ≠ some 32
  short : (fieldLine field ++ crlf).length < 2 ^ 31

structure WellFormed (r : Reply) : Prop where
  version : r.version ≠ [] ∧ r.version.length ≤ 3 ∧
    ∀ c ∈ r.version, c ≠ 0 ∧ Lib.isSpace c = false
  reason : Inline r.reason
  fields : ∀ field ∈ r.fields, FieldWellFormed field
  short : (r.statusLine ++ crlf).length < 2 ^ 31

-- The first field with a key, whatever the case of its letters.
def field (r : Reply) (key : List Byte) : Option (List Byte × List Byte) :=
  r.fields.find? fun field => field.1.map Lib.tolower = (Lib.cstr key).map Lib.tolower

end Reply

section

variable {l rest : List Byte} {r : Reply}

-- The first line ends behind the first newline.
theorem getlines_line (h : ∀ c ∈ l, c ≠ 10) (rest : List Byte) :
    getlines (l ++ 10 :: rest) = (l ++ [10]) :: getlines rest := by
  induction l with
  | nil => exact if_pos rfl
  | cons c l ih =>
      have hline := ih fun a ha => h a (List.mem_cons_of_mem c ha)
      rw [List.cons_append, getlines, if_neg (h c List.mem_cons_self), hline]
      rfl

theorem Inline.string (h : Inline l) : ∀ c ∈ l, c ≠ 0 := fun c hc => (h c hc).1

theorem Inline.newline (h : Inline l) : ∀ c ∈ l, c ≠ 10 := by
  rintro c hc rfl
  exact absurd (h 10 hc).2 (by decide)

theorem Inline.append {t : List Byte} (h : Inline l) (ht : Inline t) : Inline (l ++ t) := by
  intro c hc
  rcases List.mem_append.mp hc with hc | hc
  · exact h c hc
  · exact ht c hc

theorem Inline.cons {c : Byte} (hc : c ≠ 0 ∧ isTerminator c = false) (h : Inline l) :
    Inline (c :: l) := List.forall_mem_cons.mpr ⟨hc, h⟩

theorem getlines_crlf (h : Inline l) (rest : List Byte) :
    getlines (l ++ crlf ++ rest) = (l ++ crlf) :: getlines rest := by
  have hline : ∀ c ∈ l ++ [13], c ≠ 10 := by
    intro c hc
    rcases List.mem_append.mp hc with hc | hc
    · exact h.newline c hc
    · rw [List.mem_singleton.mp hc]
      decide
  have hlines := getlines_line hline rest
  simp only [List.append_assoc, List.singleton_append] at hlines
  rw [crlf, List.append_assoc]
  exact hlines

theorem content_crlf (h : Inline l) : content (l ++ crlf) = l := by
  have hstop : ∀ hne : l ≠ [], ¬isTerminator (l.getLast hne) = true := by
    intro hne
    rw [(h _ (List.getLast_mem hne)).2]
    exact Bool.false_ne_true
  rw [content, crlf, show l ++ [13, 10] = (l ++ [13]) ++ [10] by rw [List.append_assoc]; rfl,
    List.rdropWhile_concat_pos _ _ _ (by decide), List.rdropWhile_concat_pos _ _ _ (by decide)]
  exact List.rdropWhile_eq_self_iff.mpr hstop

theorem string_crlf (h : Inline l) : ∀ c ∈ l ++ crlf, c ≠ 0 := by
  intro c hc
  rcases List.mem_append.mp hc with hc | hc
  · exact h.string c hc
  · rintro rfl
    exact absurd hc (by decide)

theorem chomp_crlf (h : Inline l) (hshort : (l ++ crlf).length < 2 ^ 31) :
    chomp (l ++ crlf) = l := by
  obtain ⟨kept, hchomp, -, hnil⟩ := chomp_eq (l ++ crlf)
  rw [hchomp, hnil.mpr (measured_of_short hshort), List.append_nil, content_crlf h]

theorem toInt_nonneg {n : Nat} (h : n < 2 ^ 31) : 0 ≤ (BitVec.ofNat 32 n).toInt := by
  rw [BitVec.toInt_eq_toNat_cond, BitVec.toNat_ofNat]
  split <;> omega

theorem chompResponse_crlf (h : Inline l) (hshort : (l ++ crlf).length < 2 ^ 31) :
    chompResponse (l ++ crlf) = l := by
  rw [List.length_append] at hshort
  have hlength : l.length + 2 < 2 ^ 31 := hshort
  have hreverse : (l ++ crlf).reverse = 10 :: 13 :: l.reverse := by
    rw [List.reverse_append]
    rfl
  have hloop : chompResponseLoop l.reverse = l.reverse := by
    cases hl : l.reverse with
    | nil => rfl
    | cons c t =>
        have hc : c ∈ l := List.mem_reverse.mp (hl ▸ List.mem_cons_self)
        have hnot : ¬(c = 13 ∨ c = 10) := by
          rintro (rfl | rfl)
          · exact absurd (h 13 hc).2 (by decide)
          · exact absurd (h 10 hc).2 (by decide)
        exact if_neg fun hstop => hnot hstop.2
  rw [chompResponse, hreverse, chompResponseLoop, if_pos, chompResponseLoop, if_pos, hloop,
    List.reverse_reverse]
  · exact ⟨toInt_nonneg (by rw [List.length_reverse]; omega), Or.inl rfl⟩
  · exact ⟨toInt_nonneg (by rw [List.length_cons, List.length_reverse]; omega), Or.inr rfl⟩

end

namespace Reply

variable {r : Reply} {field : List Byte × List Byte}

theorem FieldWellFormed.inline (h : FieldWellFormed field) : Inline (fieldLine field) :=
  h.key.append (.cons (by decide) (.cons (by decide) h.value))

theorem FieldWellFormed.isHeader (h : FieldWellFormed field) :
    IsHeader (fieldLine field) field.1 field.2 :=
  ⟨⟨0, 0, rfl⟩, h.keyStart, h.colonFree, h.valueStart⟩

theorem print_inline (code : BitVec 32) : Inline (Lib.Conversion.dec.print code) := by
  intro c hc
  rcases (Lib.Conversion.dec.print_chars code).2 c hc with rfl | ⟨d, hd, rfl⟩
  · decide
  · have hdigit : ∀ d < 16, Lib.digitChar d ≠ 0 ∧ isTerminator (Lib.digitChar d) = false := by
      decide
    exact hdigit d hd

theorem WellFormed.version_inline (h : r.WellFormed) : Inline r.version := by
  intro c hc
  obtain ⟨hzero, hspace⟩ := h.version.2.2 c hc
  refine ⟨hzero, ?_⟩
  rw [isTerminator, Bool.or_eq_false_iff, decide_eq_false_iff_not, decide_eq_false_iff_not]
  constructor
  · rintro rfl
    exact absurd hspace (by decide)
  · rintro rfl
    exact absurd hspace (by decide)

theorem WellFormed.status_inline (h : r.WellFormed) : Inline r.statusLine := by
  have hhttp : Inline (Lib.ascii "HTTP/") := by decide
  exact hhttp.append (h.version_inline.append (.cons (by decide)
    ((print_inline r.code).append (.cons (by decide) h.reason))))

-- The version and the code are found in the status line.
theorem WellFormed.scan (h : r.WellFormed) :
    scanStatus r.statusLine = (some r.version, some r.code) := by
  obtain ⟨hne, hlength, hchars⟩ := h.version
  have htake : (Lib.ascii "HTTP/" ++ (r.version ++ 32 :: (Lib.Conversion.dec.print r.code ++
      32 :: r.reason))).take (Lib.ascii "HTTP/").length = Lib.ascii "HTTP/" := List.take_left
  have hspace : ∀ c ∈ (r.version ++ 32 :: (Lib.Conversion.dec.print r.code ++
      32 :: r.reason)).head?, Lib.isSpace c = false := by
    obtain ⟨c, t, hversion⟩ := List.exists_cons_of_ne_nil hne
    intro a ha
    rw [hversion] at ha hchars
    obtain rfl := Option.some.inj ha
    exact (hchars _ List.mem_cons_self).2
  have hword : ((r.version ++ 32 :: (Lib.Conversion.dec.print r.code ++ 32 :: r.reason)).takeWhile
      fun c => !Lib.isSpace c).take 3 = r.version := by
    rw [List.takeWhile_append_of_pos fun c hc => by rw [(hchars c hc).2]; rfl,
      List.takeWhile_cons_of_neg (by decide), List.append_nil]
    exact List.take_of_length_le hlength
  have hstops : Lib.Stops (32 :: r.reason) := by
    intro c hc
    obtain rfl := Option.some.inj hc
    decide
  have hcode := (Lib.print_append_solid .dec r.code (32 :: r.reason)).2
  unfold scanStatus statusLine
  dsimp only
  rw [htake, if_neg (not_not.mpr rfl), List.drop_left, Lib.dropWhile_of_head hspace, hword,
    if_neg hne, List.drop_left, List.dropWhile_cons_of_pos (by decide),
    Lib.dropWhile_of_head hcode, Lib.Conversion.scan_print _ _ hstops]
  rfl

-- The parser takes the fields one after the other, and stops behind the blank line.
theorem parseLoop_fields {fields pairs : List (List Byte × List Byte)} {s : Headers}
    (hfields : ∀ field ∈ fields, FieldWellFormed field) (h : s.Holds pairs false)
    (body : List Byte) :
    ∃ s', parseLoop (getlines ((fields.flatMap fun field => fieldLine field ++ crlf) ++
        (crlf ++ body))) s = (s', getlines body) ∧ s'.Holds (pairs ++ fields) false := by
  induction fields generalizing s pairs with
  | nil =>
      have hblank : chomp (Lib.strncpy crlf crlf.length) = [] := by decide
      have hlines : getlines (crlf ++ body) = crlf :: getlines body :=
        getlines_crlf (List.forall_mem_nil _) body
      refine ⟨s, ?_, by rwa [List.append_nil]⟩
      rw [List.flatMap_nil, List.nil_append, hlines, parseLoop]
      exact if_pos hblank
  | cons field fields ih =>
      have hfield := hfields field List.mem_cons_self
      have hsplit : splitHeader (fieldLine field) = some field :=
        (splitHeader_eq_some hfield.inline.string).mpr hfield.isHeader
      have hne : fieldLine field ≠ [] := List.append_ne_nil_of_right_ne_nil _ (List.cons_ne_nil _ _)
      obtain ⟨s', hloop, hholds⟩ := ih (fun f hf => hfields f (List.mem_cons_of_mem field hf))
        (parseLine_header h hsplit)
      refine ⟨s', ?_, ?_⟩
      · rw [List.flatMap_cons, List.append_assoc, getlines_crlf hfield.inline, parseLoop,
          Lib.strncpy_length (string_crlf hfield.inline), chomp_crlf hfield.inline hfield.short]
        exact (if_neg hne).trans hloop
      · rw [List.append_assoc, List.singleton_append] at hholds
        exact hholds

theorem WellFormed.parse (h : r.WellFormed) :
    ∃ headers, httpParseHeaders (r.head ++ r.body) = (headers, r.body) ∧
      headers.Holds r.fields false := by
  obtain ⟨headers, hloop, hholds⟩ := parseLoop_fields h.fields holds_start r.body
  refine ⟨headers, ?_, hholds⟩
  rw [httpParseHeaders, head, List.append_assoc, hloop]
  exact Prod.ext rfl (flatten_getlines r.body)

-- The whole answer of a server.
theorem WellFormed.response (h : r.WellFormed) {http : Http} {taken : Nat}
    (hstate : http.state = .hdrs) (hfile : http.file = r.text) (htaken : 2 ≤ taken) :
    ∃ headers, httpResponse taken http = (0, {
        sent := http.sent ++ crlf
        file := r.body
        state := .body
        code := r.code
        version := r.version
        response := some r.statusLine
        headers }) ∧ headers.Holds r.fields false := by
  obtain ⟨headers, hparse, hholds⟩ := h.parse
  have hinline := h.status_inline
  have hlines : getlines http.file = (r.statusLine ++ crlf) :: getlines (r.head ++ r.body) := by
    rw [hfile, text, getlines_crlf hinline]
  have hint : (BitVec.ofNat 32 (r.statusLine ++ crlf).length).toInt ≠ -1 := by
    have hnonneg := toInt_nonneg h.short
    omega
  have hresponse : Lib.cstr (chompResponse (Lib.strncpy (r.statusLine ++ crlf)
      (r.statusLine ++ crlf).length)) = r.statusLine := by
    rw [Lib.strncpy_length (string_crlf hinline), chompResponse_crlf hinline h.short,
      Lib.cstr_eq_self hinline.string]
  have htake : crlf.take taken = crlf := List.take_of_length_le htaken
  refine ⟨headers, ?_, hholds⟩
  unfold httpResponse Http.write
  have hfull : ¬taken < crlf.length := not_lt.mpr htaken
  rw [if_neg (not_not.mpr hstate)]
  dsimp only
  rw [if_neg hfull, hlines]
  dsimp only
  rw [if_neg hint, hresponse, h.scan, flatten_getlines, hparse, htake]

end Reply

-- What a client of a connection may ask for.
inductive Call where
  | request (taken : Nat) (up : Option Url)
  | response (taken : Nat)
  | status
  | getc
  | lookup (key : List Byte)

inductive Answer where
  | result (n : Int)
  | status (response : Option (Option (List Byte) × BitVec 32))
  | char (c : Option Byte)
  | value (lookup : Option Lookup)
deriving DecidableEq, Repr

def Http.call (http : Http) : Call → Answer × Http
  | .request taken up =>
    let (n, http) := httpRequest taken http up
    (.result n, http)
  | .response taken =>
    let (n, http) := httpResponse taken http
    (.result n, http)
  | .status => (.status (httpStatus http), http)
  | .getc =>
    let (c, http) := httpGetc http
    (.char c, http)
  | .lookup key => (.value (httpHeadersLookup (some http.headers) (some key)), http)

inductive Phase where
  | fresh
  | asked
  | reading (rest : List Byte)
deriving DecidableEq, Repr

-- A connection to a server that sends a reply: what it has been told, and how far it has been
-- read.
structure Dialogue where
  sent : List Byte
  phase : Phase
deriving DecidableEq, Repr

def Reply.call (r : Reply) (d : Dialogue) : Call → Answer × Dialogue
  | .request taken up =>
    let text := requestText up
    match d.phase with
    | .fresh =>
      if up.isNone then (.result 1, d)
      else if taken < text.length then (.result 1, { d with sent := d.sent ++ text.take taken })
      else (.result 0, ⟨d.sent ++ text, .asked⟩)
    | _ => (.result 1, d)
  | .response taken =>
    match d.phase with
    | .asked =>
      if taken < 2 then (.result 1, { d with sent := d.sent ++ crlf.take taken })
      else (.result 0, ⟨d.sent ++ crlf, .reading r.body⟩)
    | _ => (.result 1, d)
  | .status =>
    match d.phase with
    | .reading _ => (.status (some (some r.statusLine, r.code)), d)
    | _ => (.status none, d)
  | .getc =>
    match d.phase with
    | .reading (c :: rest) => (.char (some c), { d with phase := .reading rest })
    | _ => (.char none, d)
  | .lookup key =>
    match d.phase with
    | .reading _ => (.value (some (found (r.field key))), d)
    | _ => (.value (some ⟨none, none⟩), d)

-- What the connection is in each phase.
def Reply.InPhase (r : Reply) (http : Http) : Phase → Prop
  | .fresh => http.state = .req ∧ http.file = r.text ∧ http.headers = .start
  | .asked => http.state = .hdrs ∧ http.file = r.text ∧ http.headers = .start
  | .reading rest => http.state = .body ∧ http.file = rest ∧
      http.response = some r.statusLine ∧ http.code = r.code ∧ http.headers.Holds r.fields false

def Reply.Shows (r : Reply) (http : Http) (d : Dialogue) : Prop :=
  http.sent = d.sent ∧ r.InPhase http d.phase

section

variable {r : Reply} {http : Http} {d : Dialogue}

theorem Reply.lookup_eq (hr : r.WellFormed) {headers : Headers}
    (h : headers.Holds r.fields false) (key : List Byte) :
    httpHeadersLookup (some headers) (some key) = some (found (r.field key)) := by
  rw [Snarf.lookup_eq h, Reply.field]
  congr 2
  apply List.find?_congr
  intro field hfield
  apply decide_eq_decide.mpr
  rw [Lib.strcasecmp_eq_zero, Lib.cstr_eq_self (hr.fields field hfield).key.string]

theorem lookup_start (key : List Byte) :
    httpHeadersLookup (some .start) (some key) = some ⟨none, none⟩ := rfl

theorem httpRequest_other (up : Option Url) (taken : Nat) (h : http.state ≠ .req) :
    httpRequest taken http up = (1, http) := if_pos (Or.inr h)

theorem httpResponse_other (taken : Nat) (h : http.state ≠ .hdrs) :
    httpResponse taken http = (1, http) := if_pos h

theorem httpStatus_other (h : http.state ≠ .body) : httpStatus http = none := if_pos h

theorem httpGetc_other (h : http.state ≠ .body) : httpGetc http = (none, http) := if_pos h

theorem httpRequest_eq (up : Url) (taken : Nat) (h : http.state = .req) :
    httpRequest taken http (some up) =
      if taken < (requestText (some up)).length then (1, http.write taken (requestText (some up)))
      else (0, { http with sent := http.sent ++ requestText (some up), state := .hdrs }) := by
  have hgo : ¬((some up).isNone = true ∨ http.state ≠ .req) := by simp [h]
  unfold httpRequest
  rw [if_neg hgo]
  dsimp only [Http.write]
  by_cases hlt : taken < (requestText (some up)).length
  · rw [if_pos hlt, if_pos hlt]
  · rw [if_neg hlt, if_neg hlt, List.take_of_length_le (not_lt.mp hlt)]

theorem httpResponse_short {taken : Nat} (h : http.state = .hdrs) (htaken : taken < 2) :
    httpResponse taken http = (1, http.write taken crlf) := by
  unfold httpResponse
  rw [if_neg (not_not.mpr h)]
  exact if_pos htaken

-- Calls that change nothing.
theorem Reply.shows_same (h : r.Shows http d) {call : Call} {answer : Answer}
    (hcall : http.call call = (answer, http)) (hd : r.call d call = (answer, d)) :
    (http.call call).1 = (r.call d call).1 ∧ r.Shows (http.call call).2 (r.call d call).2 := by
  rw [hcall, hd]
  exact ⟨rfl, h⟩

-- Each call gets the answer of the reply.
theorem Reply.call_shows (hr : r.WellFormed) (h : r.Shows http d) (call : Call) :
    (http.call call).1 = (r.call d call).1 ∧ r.Shows (http.call call).2 (r.call d call).2 := by
  obtain ⟨sent, phase⟩ := d
  have hphase : r.InPhase http phase := h.2
  obtain rfl : http.sent = sent := h.1
  cases call with
  | request taken up =>
      cases phase with
      | fresh =>
          obtain ⟨hstate, hfile, hheaders⟩ := hphase
          cases up with
          | none =>
              have hcall : httpRequest taken http none = (1, http) := if_pos (Or.inl rfl)
              exact Reply.shows_same h (by simp only [Http.call, hcall]) rfl
          | some up =>
              simp only [Http.call, httpRequest_eq up taken hstate, Reply.call]
              by_cases hlt : taken < (requestText (some up)).length
              · simp only [if_pos hlt, Option.isNone_some, Bool.false_eq_true, if_false]
                exact ⟨trivial, rfl, hstate, hfile, hheaders⟩
              · simp only [if_neg hlt, Option.isNone_some, Bool.false_eq_true, if_false]
                exact ⟨trivial, rfl, rfl, hfile, hheaders⟩
      | asked =>
          have hstate : http.state ≠ .req := by rw [hphase.1]; decide
          exact Reply.shows_same h (by simp only [Http.call, httpRequest_other up taken hstate]) rfl
      | reading rest =>
          have hstate : http.state ≠ .req := by rw [hphase.1]; decide
          exact Reply.shows_same h (by simp only [Http.call, httpRequest_other up taken hstate]) rfl
  | response taken =>
      cases phase with
      | fresh =>
          have hstate : http.state ≠ .hdrs := by rw [hphase.1]; decide
          exact Reply.shows_same h (by simp only [Http.call, httpResponse_other taken hstate]) rfl
      | asked =>
          obtain ⟨hstate, hfile, hheaders⟩ := hphase
          by_cases htaken : taken < 2
          · simp only [Http.call, httpResponse_short hstate htaken, Reply.call, if_pos htaken]
            exact ⟨trivial, rfl, hstate, hfile, hheaders⟩
          · obtain ⟨headers, hcall, hholds⟩ := hr.response hstate hfile (not_lt.mp htaken)
            simp only [Http.call, hcall, Reply.call, if_neg htaken]
            exact ⟨trivial, rfl, rfl, rfl, rfl, rfl, hholds⟩
      | reading rest =>
          have hstate : http.state ≠ .hdrs := by rw [hphase.1]; decide
          exact Reply.shows_same h (by simp only [Http.call, httpResponse_other taken hstate]) rfl
  | status =>
      cases phase with
      | fresh =>
          have hstate : http.state ≠ .body := by rw [hphase.1]; decide
          exact Reply.shows_same h (by simp only [Http.call, httpStatus_other hstate]) rfl
      | asked =>
          have hstate : http.state ≠ .body := by rw [hphase.1]; decide
          exact Reply.shows_same h (by simp only [Http.call, httpStatus_other hstate]) rfl
      | reading rest =>
          obtain ⟨hstate, hfile, hresponse, hcode, hholds⟩ := hphase
          have hcall : httpStatus http = some (some r.statusLine, r.code) := by
            rw [httpStatus, if_neg (not_not.mpr hstate), hresponse, hcode]
          exact Reply.shows_same h (by simp only [Http.call, hcall]) rfl
  | getc =>
      cases phase with
      | fresh =>
          have hstate : http.state ≠ .body := by rw [hphase.1]; decide
          exact Reply.shows_same h (by simp only [Http.call, httpGetc_other hstate]) rfl
      | asked =>
          have hstate : http.state ≠ .body := by rw [hphase.1]; decide
          exact Reply.shows_same h (by simp only [Http.call, httpGetc_other hstate]) rfl
      | reading rest =>
          obtain ⟨hstate, hfile, hlast⟩ := hphase
          cases rest with
          | nil =>
              have hcall : httpGetc http = (none, http) := by
                rw [httpGetc, if_neg (not_not.mpr hstate), hfile]
              exact Reply.shows_same h (by simp only [Http.call, hcall]) rfl
          | cons c rest =>
              have hcall : httpGetc http = (some c, { http with file := rest }) := by
                rw [httpGetc, if_neg (not_not.mpr hstate), hfile]
              simp only [Http.call, hcall, Reply.call]
              exact ⟨trivial, rfl, hstate, rfl, hlast⟩
  | lookup key =>
      cases phase with
      | fresh =>
          exact Reply.shows_same h (by simp only [Http.call, hphase.2.2, lookup_start]) rfl
      | asked =>
          exact Reply.shows_same h (by simp only [Http.call, hphase.2.2, lookup_start]) rfl
      | reading rest =>
          obtain ⟨hstate, hfile, hresponse, hcode, hholds⟩ := hphase
          exact Reply.shows_same h (by simp only [Http.call, Reply.lookup_eq hr hholds]) rfl

end

-- Whatever a client asks for, and in whatever order, it gets the answers of the reply, and
-- the server has been sent what the dialogue says.
theorem calls_answered (r : Reply) (hr : r.WellFormed)
    (connect : BitVec 32 → BitVec 16 → Option (List Byte)) (addr : BitVec 32) (port : Int)
    (hconnect : connect addr (BitVec.ofInt 16 port) = some r.text) (calls : List Call) :
    ∃ http, httpOpen connect (some addr) port = some http ∧
      (Lib.answers Http.call calls http).1 = (Lib.answers r.call calls ⟨[], .fresh⟩).1 ∧
      (Lib.answers Http.call calls http).2.sent =
        (Lib.answers r.call calls ⟨[], .fresh⟩).2.sent := by
  obtain ⟨http, hopen, hshows⟩ : ∃ http, httpOpen connect (some addr) port = some http ∧
      r.Shows http ⟨[], .fresh⟩ := by
    refine ⟨⟨[], r.text, .req, 0, [], none, .start⟩, ?_, rfl, rfl, rfl, rfl⟩
    show (connect addr (BitVec.ofInt 16 port) >>= _) = _
    rw [hconnect]
    rfl
  have hrun := Lib.answers_rel r.Shows (fun _ _ call h => r.call_shows hr h call) calls hshows
  exact ⟨http, hopen, hrun.1, hrun.2.1⟩

def helloReply : Reply where
  version := Lib.ascii "1.1"
  code := 200
  reason := Lib.ascii "OK"
  fields := [(Lib.ascii "Server", Lib.ascii "x")]
  body := Lib.ascii "hi"

theorem helloReply_wellFormed : helloReply.WellFormed := by
  refine ⟨by decide, by decide, fun field hfield => ?_, by decide⟩
  obtain rfl := List.mem_singleton.mp hfield
  exact ⟨by decide, by decide, by decide, by decide, by decide, by decide⟩

-- Nothing is read in front of the reply, and nothing behind its end.
theorem calls_answered_of_hello :
    ∃ http, httpOpen (fun _ _ => some helloReply.text) (some 7) 80 = some http ∧
      (Lib.answers Http.call [.getc, .request 0 (some urlInit), .request 100 (some urlInit),
        .response 2, .getc, .status, .lookup (Lib.ascii "SERVER"), .getc, .getc] http).1 =
      [.char none, .result 1, .result 0, .result 0, .char (some 104),
        .status (some (some (Lib.ascii "HTTP/1.1 200 OK"), 200)),
        .value (some ⟨some (Lib.ascii "x"), some (Lib.ascii "Server")⟩), .char (some 105),
        .char none] := by
  obtain ⟨http, hopen, hanswers, -⟩ := calls_answered helloReply helloReply_wellFormed
    (fun _ _ => some helloReply.text) 7 80 rfl [.getc, .request 0 (some urlInit),
      .request 100 (some urlInit), .response 2, .getc, .status, .lookup (Lib.ascii "SERVER"), .getc,
      .getc]
  refine ⟨http, hopen, hanswers.trans ?_⟩
  decide

end CSE320.Snarf
