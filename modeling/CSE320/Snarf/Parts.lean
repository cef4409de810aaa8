import CSE320.Snarf.Url

namespace CSE320.Snarf

open Lib (Byte)

-- The parts that an absolute URL is put together from.
structure Parts where
  method : List Byte
  host : List Byte
  port : Option (List Byte)
  path : List Byte
deriving DecidableEq, Repr

namespace Parts

def portText (p : Parts) : List Byte :=
  match p.port with
  | none => []
  | some digits => 58 :: digits

def text (p : Parts) : List Byte :=
  p.method ++ 58 :: 47 :: 47 :: (p.host ++ (p.portText ++ p.path))

-- Characters that end neither a string nor a part.
def Plain (s : List Byte) : Prop := ∀ c ∈ s, c ≠ 0 ∧ c ≠ 58 ∧ c ≠ 47

structure WellFormed (p : Parts) : Prop where
  method : Plain p.method
  host : Plain p.host
  port : ∀ digits ∈ p.port, ∃ n, Lib.decimal digits = some n ∧ n < 2 ^ 31
  path : p.path = [] ∨ p.path.head? = some 47
  string : ∀ c ∈ p.path, c ≠ 0

-- Without a port of its own, a URL has that of its method.
def portNumber (p : Parts) : Nat :=
  match p.port with
  | some digits => Lib.readNat 10 digits
  | none => if p.method.map Lib.tolower = Lib.ascii "http" then 80 else 0

end Parts

section

variable {p : Parts}

theorem decimal_digits {digits : List Byte} {n : Nat} (h : Lib.decimal digits = some n) :
    (∀ c ∈ digits, Lib.isDigit 10 c = true) ∧ Lib.readNat 10 digits = n := by
  obtain ⟨-, hdigits⟩ := Lib.decimal_eq_some.mp h
  obtain ⟨hall, hread⟩ := Lib.digits_eq_some.mp hdigits
  exact ⟨List.all_eq_true.mp hall, hread⟩

theorem portText_ne_zero (h : p.WellFormed) : ∀ c ∈ p.portText, c ≠ 0 := by
  unfold Parts.portText
  cases hport : p.port with
  | none => exact fun c hc => nomatch hc
  | some digits =>
      obtain ⟨n, hdecimal, -⟩ := h.port digits hport
      intro c hc
      rcases List.mem_cons.mp hc with rfl | hc
      · decide
      · exact char_ne_zero_of_digit ((decimal_digits hdecimal).1 c hc)

theorem text_ne_zero (h : p.WellFormed) : ∀ c ∈ p.text, c ≠ 0 := by
  intro c hc
  unfold Parts.text at hc
  simp only [List.mem_append, List.mem_cons] at hc
  rcases hc with hc | rfl | rfl | rfl | hc | hc | hc
  · exact (h.method c hc).1
  · decide
  · decide
  · decide
  · exact (h.host c hc).1
  · exact portText_ne_zero h c hc
  · exact h.string c hc

-- The string ends or goes on with a slash.
theorem path_head (h : p.WellFormed) : ∃ c rest, p.path ++ [0] = c :: rest ∧ (c = 0 ∨ c = 47) ∧
    (c = 0 ↔ p.path = []) := by
  rcases h.path with hnil | hslash
  · exact ⟨0, [], by rw [hnil]; rfl, Or.inl rfl, iff_of_true rfl hnil⟩
  · obtain ⟨c, rest, hpath⟩ := List.exists_cons_of_ne_nil fun hnil : p.path = [] => by
      rw [hnil] at hslash
      cases hslash
    rw [hpath] at hslash ⊢
    obtain rfl := Option.some.inj hslash
    exact ⟨47, rest ++ [0], rfl, Or.inr rfl, iff_of_false (by decide) (by simp)⟩

-- The pointer stops in front of the path.
theorem parsePort_text (h : p.WellFormed) {up : Url} {front : List Byte}
    (hstuff : up.stuff = front ++ (p.portText ++ (p.path ++ [0]))) :
    ∃ port behind, parsePort up front.length = ({ up with port }, behind.length) ∧
      up.stuff = behind ++ (p.path ++ [0]) ∧
      port.toInt = match p.port with
        | some digits => (Lib.readNat 10 digits : Int)
        | none => up.port.toInt := by
  obtain ⟨c, rest, hpath, hc, -⟩ := path_head h
  rw [hpath] at hstuff ⊢
  unfold Parts.portText at hstuff
  cases hport : p.port with
  | none =>
      rw [hport, List.nil_append] at hstuff
      have hcolon : up.char front.length ≠ 58 := by
        rw [char_at hstuff]
        rintro rfl
        exact absurd hc (by decide)
      exact ⟨up.port, front, parsePort_none hcolon, hstuff, rfl⟩
  | some digits =>
      rw [hport] at hstuff
      obtain ⟨n, hdecimal, hlt⟩ := h.port digits hport
      obtain ⟨hdigits, hread⟩ := decimal_digits hdecimal
      have hstop : ¬Lib.isDigit 10 c = true := by
        rcases hc with rfl | rfl
        · decide
        · decide
      refine ⟨Lib.atoi digits, front ++ 58 :: digits, parsePort_at hstuff hdigits hstop, ?_, ?_⟩
      · rw [hstuff, List.append_assoc, List.cons_append]
      · rw [Lib.atoi_of_digits hdecimal hlt, ← hread]

-- What stands behind the host.
theorem portText_head (h : p.WellFormed) : ∃ c rest, p.portText ++ (p.path ++ [0]) = c :: rest ∧
    (c = 0 ∨ c = 58 ∨ c = 47) := by
  unfold Parts.portText
  cases hport : p.port with
  | none =>
      obtain ⟨c, rest, hpath, hc, -⟩ := path_head h
      exact ⟨c, rest, hpath, hc.imp_right Or.inr⟩
  | some digits => exact ⟨58, _, rfl, Or.inr (Or.inl rfl)⟩

-- The method, the host and the port, with the pointer in front of the path.
theorem parse_text (h : p.WellFormed) {up : Url} (hstuff : up.stuff = p.text ++ [0])
    (hport : up.port = 0) :
    ∃ named cp up' behind,
      parseMethod up 0 p.method.length (p.method.length + 1) = (named, cp) ∧
      parseHost named cp (p.method.length + 1) = (up', behind.length) ∧
      up'.method = some p.method ∧ up'.hostname = some p.host ∧
      up'.port.toInt = p.portNumber ∧ up'.stuff = behind ++ (p.path ++ [0]) := by
  obtain ⟨c, rest, hrest, hc⟩ := portText_head h
  have htext : up.stuff = p.method ++ 58 :: 47 :: 47 :: (p.host ++ c :: rest) := by
    rw [hstuff, Parts.text, ← hrest]
    simp only [List.append_assoc, List.cons_append]
  let port : BitVec 32 := if p.method.map Lib.tolower = Lib.ascii "http" then 80 else up.port
  let named : Url := { up with
    stuff := p.method ++ 0 :: 47 :: 47 :: (p.host ++ c :: rest), method := some p.method, port }
  have hnamed : parseMethod up 0 p.method.length (p.method.length + 1) =
      (named, p.method.length + 1) :=
    parseMethod_at htext (fun a ha => (h.method a ha).1) (Nat.lt_succ_self _)
  have hslash : p.method.length + 1 = (p.method ++ [0]).length := by
    rw [List.length_append, List.length_singleton]
  have hstored : named.stuff = (p.method ++ [0]) ++ 47 :: 47 :: (p.host ++ c :: rest) := by
    rw [List.append_assoc]
    rfl
  let hosted : Url := { named with hostname := some p.host }
  have hbehind : hosted.stuff = ((p.method ++ [0]) ++ 47 :: 47 :: p.host) ++
      (p.portText ++ (p.path ++ [0])) := by
    rw [hrest, List.append_assoc _ (47 :: 47 :: p.host)]
    exact hstored
  obtain ⟨port', behind, hparse, hend, hvalue⟩ := parsePort_text h hbehind
  refine ⟨named, _, { hosted with port := port' }, behind, hnamed, ?_, rfl, rfl, ?_, hend⟩
  · rw [hslash, parseHost_at _ hstored h.host hc]
    exact hparse
  · rw [hvalue, Parts.portNumber]
    cases p.port with
    | some digits => rfl
    | none =>
        show port.toInt = _
        by_cases hhttp : p.method.map Lib.tolower = Lib.ascii "http"
        · simp only [port, if_pos hhttp]
          rfl
        · simp only [port, if_neg hhttp, hport]
          rfl

end

-- The two searches in the whole text stop at the end of the method.
theorem urlParse_parts {p : Parts} (h : p.WellFormed) : ∃ up, urlParse (some p.text) = some up ∧
    up.method = some p.method ∧ up.hostname = some p.host ∧ up.port.toInt = p.portNumber ∧
    urlPath (some up) = some (if p.path = [] then [47] else p.path) := by
  have hplain (c : Byte) (hc : c ∈ p.method) := h.method c hc
  have htext : p.text ++ [0] =
      p.method ++ 58 :: 47 :: (47 :: (p.host ++ (p.portText ++ p.path)) ++ [0]) := by
    rw [Parts.text, List.append_assoc, List.cons_append, List.cons_append]
  have hcolon : Lib.strchr (p.text ++ [0]) 58 = some p.method.length := by
    rw [htext]
    exact Lib.strchr_append (by decide) fun c hc => ⟨(hplain c hc).1, (hplain c hc).2.1⟩
  have hslash : Lib.strchr (p.text ++ [0]) 47 = some (p.method ++ [58]).length := by
    rw [htext, ← List.singleton_append, ← List.append_assoc]
    refine Lib.strchr_append (by decide) fun c hc => ?_
    rcases List.mem_append.mp hc with hc | hc
    · exact ⟨(hplain c hc).1, (hplain c hc).2.2⟩
    · rw [List.mem_singleton.mp hc]
      decide
  rw [List.length_append, List.length_singleton] at hslash
  obtain ⟨named, cp, up, behind, hnamed, hhosted, hmethod, hhost, hport, hstuff⟩ :=
    parse_text h (show ({ urlInit with stuff := p.text ++ [0] } : Url).stuff = _ from rfl) rfl
  obtain ⟨c, rest, hpath, -, hzero⟩ := path_head h
  refine ⟨{ up with
      path := some (if up.char behind.length = 0 then .slash else .stuff behind.length) },
    ?_, hmethod, hhost, hport, ?_⟩
  · unfold urlParse
    simp only [Option.bind_eq_bind, Option.bind_some, Lib.cstr_eq_self (text_ne_zero h), hcolon,
      hslash, hnamed, hhosted]
    rfl
  · rw [char_at (hstuff.trans (congrArg (behind ++ ·) hpath))]
    by_cases hnil : p.path = []
    · rw [if_pos hnil, if_pos (hzero.mpr hnil)]
      rfl
    · rw [if_neg hnil, if_neg (mt hzero.mp hnil)]
      show some (up.string behind.length) = some p.path
      rw [string_at hstuff, Lib.cstr_append h.string]

-- A URL is taken apart into the parts that it has been put together from.
theorem urlParse_text (p : Parts) (h : p.WellFormed) :
    (urlParse (some p.text)).isSome ∧
      urlMethod (urlParse (some p.text)) = some p.method ∧
      urlHostname (urlParse (some p.text)) = some p.host ∧
      urlPort (urlParse (some p.text)) = p.portNumber ∧
      urlPath (urlParse (some p.text)) = some (if p.path = [] then [47] else p.path) := by
  obtain ⟨up, hurl, hmethod, hhost, hport, hpath⟩ := urlParse_parts h
  rw [hurl]
  exact ⟨rfl, hmethod, hhost, hport, hpath⟩

theorem urlParse_text_with_colons :
    let p : Parts := ⟨Lib.ascii "HTTP", Lib.ascii "h.org", some (Lib.ascii "0021"),
      Lib.ascii "/a:80//b"⟩
    p.text = Lib.ascii "HTTP://h.org:0021/a:80//b" ∧
      urlPort (urlParse (some p.text)) = 21 ∧
      urlPath (urlParse (some p.text)) = some (Lib.ascii "/a:80//b") := by
  intro p
  have hp : p.WellFormed := by
    constructor
    · unfold Parts.Plain
      decide
    · unfold Parts.Plain
      decide
    · intro digits hdigits
      obtain rfl := Option.some.inj hdigits
      exact ⟨21, by decide, by decide⟩
    · exact Or.inr (by decide)
    · decide
  obtain ⟨-, -, -, hport, hpath⟩ := urlParse_text p hp
  exact ⟨by decide, hport, hpath⟩

end CSE320.Snarf
