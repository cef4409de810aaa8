import CSE320.Snarf.CommandLine
import CSE320.Snarf.Parts
import CSE320.Snarf.Reply

namespace CSE320.Snarf

open Lib (Byte)

-- What the program finds outside: names and servers, how much the stream takes of the request
-- and of what ends it, and the files that can be written.
structure World where
  gethostbyname : List Byte → Option (BitVec 32)
  connect : BitVec 32 → BitVec 16 → Option (List Byte)
  request : Nat
  response : Nat
  fopen : List Byte → Bool

structure Outcome where
  status : BitVec 8
  out : List Byte
  err : List Byte
  file : Option (List Byte × List Byte)
  sent : List Byte
deriving DecidableEq, Repr

inductive Ended where
  | usage (status : BitVec 8)
  | exit (outcome : Outcome)
deriving DecidableEq, Repr

-- The tokens between blanks.
def strtok (s : List Byte) : List (List Byte) := (s.splitOn 32).filter (· ≠ [])

-- The blank behind a token becomes its NUL.
def strtokMarks : Bool → List Byte → List Byte
  | _, [] => []
  | inside, c :: s =>
    if c = 32 then (if inside then 0 else 32) :: strtokMarks false s
    else c :: strtokMarks true s

def cutTokens (mem : List Byte) (p : Nat) : List Byte :=
  let s := stringAt mem p
  mem.take p ++ (strtokMarks false s ++ mem.drop (p + s.length))

-- The headers that are found, and whether there are any.
def headersLoop (http : Http) : List (List Byte) → Option (List Byte × Bool)
  | [] => some ([], false)
  | token :: tokens => do
    let lookup ← httpHeadersLookup (some http.headers) (some token)
    let (text, keyParamFound) ← headersLoop http tokens
    match lookup.value, lookup.tempKeyParam with
    | some h, some tempKeyParam =>
      return (tempKeyParam ++ Lib.ascii ": " ++ h ++ crlf ++ text, true)
    | _, _ => return (text, keyParamFound)

def queryHeaders (args : Args) (http : Http) : Option (List Byte × List Byte) :=
  match args.keyParam with
  | none => some ([], args.mem)
  | some keyParam => do
    let (text, keyParamFound) ← headersLoop http (strtok (stringAt args.mem keyParam))
    return (if keyParamFound then text ++ crlf else text, cutTokens args.mem keyParam)

-- There are no more characters than the stream has left.
def bodyLoop : Nat → Http → Option (List Byte)
  | 0, _ => none
  | steps + 1, http =>
    match httpGetc http with
    | (none, _) => some []
    | (some c, http) => do
      let body ← bodyLoop steps http
      return c :: body

def failed (err : List Byte) : Ended := .exit ⟨255, [], err, none, []⟩

def newline : List Byte := [10]

-- From the open connection on. The results of the calls are not looked at.
def fetch (world : World) (args : Args) (up : Url) (http : Http) : Option Outcome := do
  let http := (httpRequest world.request http (some up)).2
  let http := (httpResponse world.response http).2
  let code : BitVec 32 := match httpStatus http with
    | some (_, code) => code
    | none => -1
  let (err, mem) ← queryHeaders args http
  let status : BitVec 8 := if code = 200 then 0 else code.setWidth 8
  match args.outputFile.map (stringAt mem) with
  | some name =>
    if world.fopen name then
      let body ← bodyLoop (http.file.length + 1) http
      let _ ← httpFreeHeaders http.headers
      return ⟨status, [], err, some (name, body), http.sent⟩
    else
      let _ ← httpFreeHeaders http.headers
      return ⟨255, [], err, none, http.sent⟩
  | none =>
    let body ← bodyLoop (http.file.length + 1) http
    let _ ← httpFreeHeaders http.headers
    return ⟨status, body, err, none, http.sent⟩

def main (world : World) (argv : List (List Byte)) : Option Ended := do
  match ← parseArgs argv with
  | .usage status => return .usage (BitVec.ofInt 8 status)
  | .args args =>
    match urlParse (args.urlToSnarf.map (stringAt args.mem)) with
    | none =>
      let arg := (argvPointers 0 argv)[1]?.map (stringAt args.mem)
      return failed (Lib.ascii "Illegal URL: '" ++ shown arg ++ Lib.ascii "'" ++ newline)
    | some up =>
      let (addr, up) := urlAddress world.gethostbyname up
      let port := urlPort (some up)
      let isHttp := match urlMethod (some up) with
        | none => false
        | some method => Lib.strcasecmp method (Lib.ascii "http") = 0
      if !isHttp then
        return failed (Lib.ascii "Only HTTP access method is supported" ++ newline)
      else
        match httpOpen world.connect addr port with
        | none =>
          let hostname := (urlHostname (some up)).getD (Lib.ascii "(NULL)")
          return failed (Lib.ascii "Unable to contact host '" ++ hostname ++ Lib.ascii "', port " ++
            Lib.Conversion.dec.print (BitVec.ofInt 32 port) ++ newline)
        | some http =>
          let outcome ← fetch world args up http
          return .exit outcome

-- The name that -o leaves when the keys have been taken apart.
def Given.outputName (g : Given) : Option (List Byte) :=
  g.fileName fun n => Lib.cstr ((strtokMarks false (joined g.keys)).drop n)

-- The fields that are asked for, each on a line, and a blank line when there are any.
def Reply.report (r : Reply) (keys : List (List Byte)) : List Byte :=
  let fields := (keys.flatMap strtok).filterMap r.field
  (fields.flatMap fun field => field.1 ++ Lib.ascii ": " ++ field.2 ++ crlf) ++
    if fields = [] then [] else crlf

-- The request for a document.
def Parts.request (p : Parts) : List Byte :=
  Lib.ascii "GET " ++ p.method ++ Lib.ascii "://" ++ p.host ++ Lib.ascii ":" ++
    Lib.Conversion.dec.print (BitVec.ofNat 32 p.portNumber) ++
    (if p.path = [] then [47] else p.path) ++ Lib.ascii " HTTP/1.0" ++ crlf ++
    Lib.ascii "Host: " ++ p.host ++ crlf ++ crlf

-- A document as it ends up on standard output or in a file.
def Reply.fetched (r : Reply) (g : Given) (sent : List Byte) : Outcome where
  status := if r.code = 200 then 0 else r.code.setWidth 8
  out := if g.outputName = none then r.body else []
  err := r.report g.keys
  file := g.outputName.map fun name => (name, r.body)
  sent := sent

open Given

section

variable {mem s : List Byte} {k : Nat}

theorem strtok_joined (keys : List (List Byte)) :
    strtok (Given.joined keys) = keys.flatMap strtok := by
  induction keys using List.reverseRecOn with
  | nil => rfl
  | append_singleton keys key ih =>
      rw [List.flatMap_append, List.flatMap_singleton, ← ih]
      by_cases hnil : keys = []
      · subst hnil
        rw [List.nil_append, Given.joined, List.intercalate_singleton]
        rfl
      · rw [Given.joined_concat hnil, strtok, List.splitOn_eq_splitOnP,
          List.splitOnP_append_cons _ _ (by decide), List.filter_append]
        rfl

theorem strtokMarks_length (inside : Bool) (s : List Byte) :
    (strtokMarks inside s).length = s.length := by
  induction s generalizing inside with
  | nil => rfl
  | cons c s ih =>
      rw [strtokMarks]
      split
      · rw [List.length_cons, List.length_cons, ih]
      · rw [List.length_cons, List.length_cons, ih]

theorem cutTokens_eq (h : Stands mem k s) (hs : ∀ c ∈ s, c ≠ 0) :
    cutTokens mem k = mem.take k ++ (strtokMarks false s ++ mem.drop (k + s.length)) := by
  rw [cutTokens, h.stringAt hs]

-- Only the string is changed.
theorem cutTokens_other (h : Stands mem k s) (hs : ∀ c ∈ s, c ≠ 0) {j : Nat}
    (hj : j < k ∨ k + s.length ≤ j) : (cutTokens mem k)[j]? = mem[j]? := by
  have hlt := h.lt_length
  have htake : (mem.take k).length = k := by
    rw [List.length_take]
    omega
  have hmarks := strtokMarks_length false s
  rw [cutTokens_eq h hs]
  rcases hj with hj | hj
  · rw [List.getElem?_append_left (by omega), List.getElem?_take_of_lt hj]
  · rw [List.getElem?_append_right (by omega), htake, List.getElem?_append_right (by omega), hmarks,
      List.getElem?_drop]
    congr 1
    omega

theorem cstr_append_zero (s rest : List Byte) : Lib.cstr (s ++ 0 :: rest) = Lib.cstr s := by
  induction s with
  | nil => exact cstr_cons 0 rest
  | cons c s ih => rw [List.cons_append, cstr_cons, cstr_cons, ih]

-- The end of the string.
theorem cutTokens_tail (h : Stands mem k s) (hs : ∀ c ∈ s, c ≠ 0) {n : Nat} (hn : n ≤ s.length) :
    stringAt (cutTokens mem k) (k + n) = Lib.cstr ((strtokMarks false s).drop n) := by
  have hlt := h.lt_length
  have htake : (mem.take k).length = k := by
    rw [List.length_take]
    omega
  obtain ⟨rest, hrest⟩ := h
  have hend : mem.drop (k + s.length) = 0 :: rest := by
    rw [← List.drop_drop, ← hrest, List.append_assoc, List.drop_left]
    rfl
  have hdrop : (cutTokens mem k).drop (k + n) =
      (strtokMarks false s).drop n ++ mem.drop (k + s.length) := by
    rw [cutTokens_eq ⟨rest, hrest⟩ hs, ← List.drop_drop, List.drop_left' htake]
    exact List.drop_append_of_le_length (by rw [strtokMarks_length]; exact hn)
  rw [stringAt, hdrop, hend, cstr_append_zero]

end

section

variable {args : Args} {g : Given} {url : Option (List Byte)}

-- Without keys nothing is looked up.
theorem outputName_of_none (h : args.Found g url) (hk : args.keyParam = none) :
    g.keys = [] ∧ args.outputFile.map (stringAt args.mem) = g.outputName := by
  obtain ⟨rest, off, hlaid, -⟩ := h
  have hkeys := hlaid.keys
  rw [KeysLaid] at hkeys
  dsimp only at hkeys
  rw [hk] at hkeys
  refine ⟨hkeys, hlaid.fileName (fun _ _ => rfl) fun k n hk' _ => ?_⟩
  cases hk.symm.trans hk'

-- The name of the file when the keys have been taken apart.
theorem outputName_of_some (h : args.Found g url) {k : Nat} (hk : args.keyParam = some k) :
    stringAt args.mem k = joined g.keys ∧
      args.outputFile.map (stringAt (cutTokens args.mem k)) = g.outputName := by
  obtain ⟨rest, off, hlaid, -⟩ := h
  have hkeys := hlaid.keys
  rw [KeysLaid] at hkeys
  dsimp only at hkeys
  rw [hk] at hkeys
  obtain ⟨-, hstands, -⟩ := hkeys
  have hstring := joined_ne_zero hlaid.string
  refine ⟨hstands.stringAt hstring, hlaid.fileName (fun j hj => ?_) fun k' n hk' hn => ?_⟩
  · exact cutTokens_other hstands hstring (hj k hk)
  · obtain rfl := Option.some.inj (hk.symm.trans hk')
    exact cutTokens_tail hstands hstring hn

-- The memory behind the lookups.
theorem queryHeaders_eq (h : args.Found g url) {http : Http} {text : List Byte} {any : Bool}
    (hloop : headersLoop http (g.keys.flatMap strtok) = some (text, any)) :
    ∃ mem, queryHeaders args http = some (if any then text ++ crlf else text, mem) ∧
      args.outputFile.map (stringAt mem) = g.outputName := by
  unfold queryHeaders
  cases hk : args.keyParam with
  | none =>
      obtain ⟨hnil, hname⟩ := outputName_of_none h hk
      rw [hnil] at hloop
      obtain ⟨rfl, rfl⟩ := Prod.mk.inj (Option.some.inj hloop)
      exact ⟨args.mem, rfl, hname⟩
  | some k =>
      obtain ⟨hstring, hname⟩ := outputName_of_some h hk
      refine ⟨cutTokens args.mem k, ?_, hname⟩
      show (headersLoop http (strtok (stringAt args.mem k)) >>= _) = _
      rw [hstring, strtok_joined, hloop]
      rfl

end

section

variable {r : Reply} {http : Http} {headers : Headers}

-- The fields that are found, in the order of the keys.
theorem headersLoop_eq (hr : r.WellFormed) (h : http.headers.Holds r.fields false)
    (tokens : List (List Byte)) :
    headersLoop http tokens =
      some ((tokens.filterMap r.field).flatMap fun field =>
        field.1 ++ Lib.ascii ": " ++ field.2 ++ crlf, decide (tokens.filterMap r.field ≠ [])) := by
  induction tokens with
  | nil => rfl
  | cons token tokens ih =>
      rw [headersLoop, Reply.lookup_eq hr h, ih]
      cases hfield : r.field token with
      | none =>
          rw [List.filterMap_cons_none hfield]
          rfl
      | some field =>
          rw [List.filterMap_cons_some hfield, List.flatMap_cons]
          rfl

-- The rest of the stream is copied.
theorem bodyLoop_eq {steps : Nat} (hstate : http.state = .body)
    (hsteps : http.file.length < steps) : bodyLoop steps http = some http.file := by
  induction steps generalizing http with
  | zero => omega
  | succ steps ih =>
      rw [bodyLoop, httpGetc, if_neg (not_not.mpr hstate)]
      cases hfile : http.file with
      | nil => rfl
      | cons c file =>
          rw [hfile, List.length_cons] at hsteps
          have hrest := @ih { http with file } hstate (by simpa using hsteps)
          show (bodyLoop steps { http with file } >>= _) = _
          rw [hrest]
          rfl

-- Every node of the list is freed once.
theorem freeLoop_some {xs : List Nat} {pairs : List (List Byte × List Byte)} {steps : Nat}
    {p : Option Nat} (hchain : Lib.Chain headers.next p xs)
    (hpairs : xs.map headers.pair = pairs.map some) (hnodup : xs.Nodup)
    (hsteps : xs.length ≤ steps) : (freeLoop steps p headers).isSome := by
  induction xs generalizing headers p pairs steps with
  | nil =>
      obtain rfl : p = none := hchain
      cases steps with
      | zero => rfl
      | succ steps => rfl
  | cons x xs ih =>
      obtain ⟨rfl, hrest⟩ := hchain
      cases pairs with
      | nil => cases hpairs
      | cons pair pairs =>
          rw [List.map_cons, List.map_cons, List.cons.injEq] at hpairs
          obtain ⟨next, hnode⟩ := pair_eq_some hpairs.1
          cases steps with
          | zero => cases hsteps
          | succ steps =>
              obtain ⟨hx, hnodup⟩ := List.nodup_cons.mp hnodup
              have hsame (y : Nat) (hy : y ∈ xs) : (headers.free x).nodes y = headers.nodes y := by
                apply Function.update_of_ne
                rintro rfl
                exact hx hy
              have hnext : headers.next x = next := by
                rw [Headers.next, hnode, Option.bind_some]
              rw [hnext] at hrest
              have htail := ih (hrest.congr fun y hy => next_congr (hsame y hy))
                ((List.map_congr_left fun y hy => pair_congr (hsame y hy)).trans hpairs.2) hnodup
                (Nat.le_of_succ_le_succ hsteps)
              rw [freeLoop, hnode]
              exact htail

theorem httpFreeHeaders_some {pairs : List (List Byte × List Byte)}
    (h : headers.Holds pairs false) : ∃ rest, httpFreeHeaders headers = some rest := by
  obtain ⟨xs, q, hlinked, hpairs, hend⟩ := h
  obtain rfl : q = none := hend
  have hsubset : xs ⊆ List.range headers.fresh :=
    fun x hx => List.mem_range.mpr (hlinked.bound x hx)
  have hlength := (List.Nodup.subperm hlinked.nodup hsubset).length_le
  rw [List.length_range] at hlength
  exact Option.isSome_iff_exists.mp
    (freeLoop_some (Lib.segment_none.mp hlinked.segment) hpairs hlinked.nodup hlength)

-- The report of the fields, and the name of the file behind it.
theorem report_eq (hr : r.WellFormed) {args : Args} {g : Given} {url : Option (List Byte)}
    (h : args.Found g url) (hholds : http.headers.Holds r.fields false) :
    ∃ mem, queryHeaders args http = some (r.report g.keys, mem) ∧
      args.outputFile.map (stringAt mem) = g.outputName := by
  have hloop := headersLoop_eq hr hholds (g.keys.flatMap strtok)
  obtain ⟨mem, hquery, hname⟩ := queryHeaders_eq h hloop
  refine ⟨mem, ?_, hname⟩
  rw [hquery, Reply.report]
  by_cases hnil : (g.keys.flatMap strtok).filterMap r.field = []
  · simp [hnil]
  · simp [hnil]

-- Everything behind the open connection.
theorem fetch_eq (hr : r.WellFormed) {world : World} {args : Args} {up : Url} {g : Given}
    {url : Option (List Byte)} (h : args.Found g url) (hstate : http.state = .req)
    (hfile : http.file = r.text) (hsent : http.sent = [])
    (hrequest : (requestText (some up)).length ≤ world.request) (hresponse : 2 ≤ world.response)
    (hopen : ∀ name ∈ g.outputName, world.fopen name = true) :
    fetch world args up http = some (r.fetched g (requestText (some up) ++ crlf)) := by
  let asked : Http :=
    { http with sent := http.sent ++ requestText (some up), state := .hdrs }
  have hask : httpRequest world.request http (some up) = (0, asked) := by
    rw [httpRequest_eq up world.request hstate, if_neg (not_lt.mpr hrequest)]
  obtain ⟨headers, hanswer, hholds⟩ := hr.response (show asked.state = .hdrs from rfl) hfile
    hresponse
  let answered : Http := {
    sent := http.sent ++ requestText (some up) ++ crlf
    file := r.body
    state := .body
    code := r.code
    version := r.version
    response := some r.statusLine
    headers }
  have hanswer' : httpResponse world.response asked = (0, answered) := hanswer
  obtain ⟨mem, hquery, hname⟩ :=
    report_eq hr h (show answered.headers.Holds r.fields false from hholds)
  have hbody : bodyLoop (answered.file.length + 1) answered = some r.body :=
    bodyLoop_eq rfl (Nat.lt_succ_self _)
  obtain ⟨rest, hfree⟩ : ∃ rest, httpFreeHeaders answered.headers = some rest :=
    httpFreeHeaders_some hholds
  have hcode : httpStatus answered = some (some r.statusLine, r.code) := rfl
  have hcalls : answered.sent = requestText (some up) ++ crlf := by
    show http.sent ++ requestText (some up) ++ crlf = _
    rw [hsent, List.nil_append]
  unfold fetch Reply.fetched
  simp only [hask, hanswer', hcode, hquery, Option.bind_eq_bind, Option.bind_some, hbody, hfree,
    hcalls]
  rw [hname]
  cases hout : g.outputName with
  | none => rfl
  | some name =>
      rw [hout] at hopen
      exact if_pos (hopen name rfl)

end

section

variable {p : Parts} {up : Url}

theorem parsePort_dns (up : Url) (cp : Nat) :
    (parsePort up cp).1.dnsdone = up.dnsdone ∧ (parsePort up cp).1.addr = up.addr := by
  unfold parsePort
  split
  · exact ⟨rfl, rfl⟩
  · exact ⟨rfl, rfl⟩

theorem parseHost_dns (up : Url) (cp slash : Nat) :
    (parseHost up cp slash).1.dnsdone = up.dnsdone ∧
      (parseHost up cp slash).1.addr = up.addr := by
  unfold parseHost
  split
  · exact parsePort_dns _ _
  · exact ⟨rfl, rfl⟩

theorem parseMethod_dns (up : Url) (cp colon slash : Nat) :
    (parseMethod up cp colon slash).1.dnsdone = up.dnsdone ∧
      (parseMethod up cp colon slash).1.addr = up.addr := by
  unfold parseMethod
  split
  · exact ⟨rfl, rfl⟩
  · exact ⟨rfl, rfl⟩

-- No name has been looked up for a URL that has just been parsed.
theorem urlParse_dns {url : Option (List Byte)} (h : urlParse url = some up) :
    up.dnsdone = 0 ∧ up.addr = 0 := by
  unfold urlParse at h
  obtain ⟨url, -, h⟩ := Option.bind_eq_some_iff.mp h
  dsimp only at h
  split at h
  · rename_i colon slash _ _
    obtain rfl := Option.some.inj h
    obtain ⟨hdone, haddr⟩ := parseHost_dns
      (parseMethod { urlInit with stuff := Lib.cstr url ++ [0] } 0 colon slash).1
      (parseMethod { urlInit with stuff := Lib.cstr url ++ [0] } 0 colon slash).2 slash
    obtain ⟨hdone', haddr'⟩ :=
      parseMethod_dns { urlInit with stuff := Lib.cstr url ++ [0] } 0 colon slash
    exact ⟨hdone.trans hdone', haddr.trans haddr'⟩
  · obtain rfl := Option.some.inj h
    exact ⟨rfl, rfl⟩

-- What is sent for it.
theorem requestText_eq (hmethod : up.method = some p.method) (hhost : up.hostname = some p.host)
    (hport : up.port.toInt = p.portNumber)
    (hpath : urlPath (some up) = some (if p.path = [] then [47] else p.path)) :
    requestText (some up) ++ crlf = p.request := by
  have hname : urlHostname (some up) = some p.host := hhost
  have hway : urlMethod (some up) = some p.method := hmethod
  have hnumber : urlPort (some up) = p.portNumber := hport
  rw [requestText, hname, hway, hnumber, hpath, BitVec.ofInt_natCast]
  rfl

-- The address of the host, or none when it has no name.
theorem urlAddress_eq {gethostbyname : List Byte → Option (BitVec 32)} {addr : BitVec 32}
    (hp : p.WellFormed) (hdone : up.dnsdone = 0) (hzero : up.addr = 0)
    (hhost : up.hostname = some p.host)
    (haddr : (if p.host = [] then some 0 else gethostbyname p.host) = some addr) :
    urlAddress gethostbyname up = (some addr, { up with addr, dnsdone := 1 }) := by
  unfold urlAddress
  rw [if_pos hdone, hhost]
  dsimp only
  cases hname : p.host with
  | nil =>
      rw [if_pos hname] at haddr
      obtain rfl := Option.some.inj haddr
      rw [if_neg (by decide), hzero]
  | cons c host =>
      have hc : (c :: host).headD 0 ≠ 0 := (hp.host c (hname ▸ List.mem_cons_self)).1
      rw [if_neg (by rw [hname]; exact List.cons_ne_nil c host), hname] at haddr
      rw [if_pos hc, haddr]

end

-- A document is fetched: the server has been sent one request, its body is written to standard
-- output or to the file, the fields that were asked for to standard error, and the program ends
-- with the code.
theorem main_fetches {argv : List (List Byte)} {items : List Item} {p : Parts} {r : Reply}
    (world : World) {addr : BitVec 32} (hstring : ∀ arg ∈ argv, ∀ c ∈ arg, c ≠ 0)
    (hline : CommandLine argv items (some p.text)) (hp : p.WellFormed)
    (hmethod : p.method.map Lib.tolower = Lib.ascii "http") (hr : r.WellFormed)
    (haddr : (if p.host = [] then some 0 else world.gethostbyname p.host) = some addr)
    (hconnect : world.connect addr (BitVec.ofNat 16 p.portNumber) = some r.text)
    (hrequest : p.request.length ≤ world.request + 2) (hresponse : 2 ≤ world.response)
    (hopen : ∀ name ∈ (Given.ofItems items).outputName, world.fopen name = true) :
    main world argv = some (.exit (r.fetched (.ofItems items) p.request)) := by
  obtain ⟨args, hparse, hfound⟩ := hline.found hstring
  obtain ⟨up, hurl, hup, hhost, hport, hpath⟩ := urlParse_parts hp
  obtain ⟨hdone, hzero⟩ := urlParse_dns hurl
  have haddress := urlAddress_eq hp hdone hzero hhost haddr
  let known : Url := { up with addr, dnsdone := 1 }
  have htext : requestText (some known) ++ crlf = p.request := requestText_eq hup hhost hport hpath
  have hlength := congrArg List.length htext
  rw [List.length_append] at hlength
  have hshort : (requestText (some known)).length ≤ world.request := by
    have hcrlf : crlf.length = 2 := rfl
    omega
  let http : Http := ⟨[], r.text, .req, 0, [], none, .start⟩
  have hhttp : httpOpen world.connect (some addr) (urlPort (some known)) = some http := by
    have hnumber : urlPort (some known) = p.portNumber := hport
    show (world.connect addr (BitVec.ofInt 16 (urlPort (some known))) >>= _) = _
    rw [hnumber, BitVec.ofInt_natCast, hconnect]
    rfl
  have hfetch : fetch world args known http = some (r.fetched (.ofItems items) p.request) := by
    rw [← htext]
    exact fetch_eq hr hfound rfl rfl rfl hshort hresponse hopen
  have hways : urlMethod (some known) = some p.method := hup
  have hsame : Lib.strcasecmp p.method (Lib.ascii "http") = 0 := by
    rw [Lib.strcasecmp_eq_zero, Lib.cstr_eq_self fun c hc => (hp.method c hc).1]
    exact hmethod
  obtain ⟨-, -, -, hname⟩ := hfound
  dsimp only [known] at hways hhttp hfetch
  unfold main
  rw [hparse]
  simp only [Option.bind_eq_bind, Option.bind_some, hname, hurl, haddress, hways, hsame, hhttp,
    hfetch]
  rfl

-- The second key is put over the name of the file, and its end is the name.
theorem main_fetches_of_keys :
    let world : World := {
      gethostbyname := fun _ => some 7
      connect := fun addr port => if addr = 7 ∧ port = 8080 then some helloReply.text else none
      request := 100
      response := 2
      fopen := fun _ => true }
    main world [Lib.ascii "snarf", Lib.ascii "-q", Lib.ascii "a", Lib.ascii "-o", Lib.ascii "f",
      Lib.ascii "-q", Lib.ascii "server", Lib.ascii "http://h.org:8080"] =
    some (.exit {
      status := 0
      out := []
      err := Lib.ascii "Server: x" ++ crlf ++ crlf
      file := some (Lib.ascii "ver", Lib.ascii "hi")
      sent := Lib.ascii "GET http://h.org:8080/ HTTP/1.0" ++ crlf ++ Lib.ascii "Host: h.org" ++
        crlf ++ crlf }) := by
  intro world
  let p : Parts := ⟨Lib.ascii "http", Lib.ascii "h.org", some (Lib.ascii "8080"), []⟩
  have hp : p.WellFormed := by
    constructor
    · unfold Parts.Plain
      decide
    · unfold Parts.Plain
      decide
    · intro digits hdigits
      obtain rfl := Option.some.inj hdigits
      exact ⟨8080, by decide, by decide⟩
    · exact Or.inl rfl
    · decide
  have hurl : ¬IsOption p.text := by
    rintro ⟨c, attached, heq⟩
    have hhead : p.text.head? = some 45 := congrArg List.head? heq
    exact absurd hhead (by decide)
  have hline : CommandLine [Lib.ascii "snarf", Lib.ascii "-q", Lib.ascii "a", Lib.ascii "-o",
      Lib.ascii "f", Lib.ascii "-q", Lib.ascii "server", Lib.ascii "http://h.org:8080"]
      [.query (Lib.ascii "a"), .output (Lib.ascii "f"), .query (Lib.ascii "server")]
      (some p.text) :=
    ⟨by decide, _, _, rfl, .query rfl (by decide) (.output rfl (by decide)
      (.query rfl (by decide) (.url hurl)))⟩
  rw [main_fetches world (by decide) hline hp (by decide) helloReply_wellFormed rfl (by decide)
    (by decide) (by decide) fun _ _ => rfl]
  decide

end CSE320.Snarf
