import CSE320.Snarf.Http
import CSE320.Snarf.Url

namespace CSE320.Snarf

open Lib (Byte)

inductive HttpState where
  | req
  | hdrs
  | body
  | done
deriving DecidableEq, Repr

-- The stream is what has been given to it, and what is left of what the server sends.
structure Http where
  sent : List Byte
  file : List Byte
  state : HttpState
  code : BitVec 32
  version : List Byte
  response : Option (List Byte)
  headers : Headers

-- The address that is known or that the name server finds.
def urlAddress (gethostbyname : List Byte → Option (BitVec 32)) (up : Url) :
    Option (BitVec 32) × Url :=
  if up.dnsdone = 0 then
    match up.hostname with
    | some hostname =>
      if hostname.headD 0 ≠ 0 then
        match gethostbyname hostname with
        | none => (none, up)
        | some addr => (some addr, { up with addr, dnsdone := 1 })
      else (some up.addr, { up with dnsdone := 1 })
    | none => (some up.addr, { up with dnsdone := 1 })
  else (some up.addr, up)

-- The port is an unsigned short. What a server sends is given for its address and its port.
def httpOpen (connect : BitVec 32 → BitVec 16 → Option (List Byte)) (addr : Option (BitVec 32))
    (port : Int) : Option Http := do
  let file ← connect (← addr) (BitVec.ofInt 16 port)
  return {
    sent := []
    file
    state := .req
    code := 0
    version := []
    response := none
    headers := .start }

def crlf : List Byte := [13, 10]

-- A string that is NULL.
def shown (s : Option (List Byte)) : List Byte := s.getD (Lib.ascii "(null)")

def requestText (up : Option Url) : List Byte :=
  Lib.ascii "GET " ++ shown (urlMethod up) ++ Lib.ascii "://" ++ shown (urlHostname up) ++
    Lib.ascii ":" ++ Lib.Conversion.dec.print (BitVec.ofInt 32 (urlPort up)) ++
    shown (urlPath up) ++ Lib.ascii " HTTP/1.0" ++ crlf ++
    Lib.ascii "Host: " ++ shown (urlHostname up) ++ crlf

namespace Http

-- The stream takes a number of characters, and fails when there are more.
def write (http : Http) (taken : Nat) (text : List Byte) : Http :=
  { http with sent := http.sent ++ text.take taken }

end Http

def httpRequest (taken : Nat) (http : Http) (up : Option Url) : Int × Http :=
  if up.isNone ∨ http.state ≠ .req then (1, http)
  else
    let text := requestText up
    let http := http.write taken text
    if taken < text.length then (1, http) else (0, { http with state := .hdrs })

-- The line from its last character on. The place of a character is taken for an int.
def chompResponseLoop : List Byte → List Byte
  | [] => []
  | c :: l =>
    if 0 ≤ (BitVec.ofNat 32 l.length).toInt ∧ (c = 13 ∨ c = 10) then chompResponseLoop l
    else c :: l

def chompResponse (l : List Byte) : List Byte := (chompResponseLoop l.reverse).reverse

-- The format "HTTP/%3s %d " of sscanf, with what it stores.
def scanStatus (response : List Byte) : Option (List Byte) × Option (BitVec 32) :=
  let http := Lib.ascii "HTTP/"
  if response.take http.length ≠ http then (none, none)
  else
    let s := (response.drop http.length).dropWhile Lib.isSpace
    let version := (s.takeWhile fun c => !Lib.isSpace c).take 3
    if version = [] then (none, none)
    else
      let s := (s.drop version.length).dropWhile Lib.isSpace
      (some version, (Lib.Conversion.dec.scan s).map Prod.fst)

-- There is always enough memory for malloc and getline.
def httpResponse (taken : Nat) (http : Http) : Int × Http :=
  if http.state ≠ .hdrs then (1, http)
  else
    let http := http.write taken crlf
    if taken < crlf.length then (1, http)
    else
      match getlines http.file with
      | [] => (1, { http with response := some [] })
      | line :: rest =>
        let http := { http with file := rest.flatten }
        if (BitVec.ofNat 32 line.length).toInt = -1 then (1, { http with response := some [] })
        else
          let response := Lib.cstr (chompResponse (Lib.strncpy line line.length))
          let http := { http with response := some response }
          match scanStatus response with
          | (none, _) => (1, http)
          | (some version, none) => (1, { http with version })
          | (some version, some code) =>
            let (headers, file) := httpParseHeaders http.file
            (0, { http with version, code, headers, file, state := .body })

-- The status line and the code, which is not stored otherwise.
def httpStatus (http : Http) : Option (Option (List Byte) × BitVec 32) :=
  if http.state ≠ .body then none else some (http.response, http.code)

-- The next character or EOF.
def httpGetc (http : Http) : Option Byte × Http :=
  if http.state ≠ .body then (none, http)
  else
    match http.file with
    | [] => (none, http)
    | c :: file => (some c, { http with file })

-- A node that has been freed cannot be freed again.
def freeLoop : Nat → Option Nat → Headers → Option Headers
  | _, none, s => some s
  | 0, some _, _ => none
  | steps + 1, some head, s => do
    let node ← s.nodes head
    let _ ← node.key
    let _ ← node.value
    freeLoop steps node.next (s.free head)

def httpFreeHeaders (s : Headers) : Option Headers := freeLoop s.fresh s.head s

end CSE320.Snarf
