import CSE320.Lib.CString
import Mathlib.Logic.Function.Basic

namespace CSE320.Snarf

open Lib (Byte)

-- A field that is none has not been assigned, but for next, where it is NULL.
structure Hdrnode where
  key : Option (List Byte)
  value : Option (List Byte)
  next : Option Nat
deriving DecidableEq, Repr

-- The nodes that have not been freed, with the head and the last pointer of the parser.
-- Numbers are not used again.
structure Headers where
  nodes : Nat → Option Hdrnode
  fresh : Nat
  head : Option Nat
  last : Option Nat

def Headers.start : Headers where
  nodes := fun _ => none
  fresh := 0
  head := none
  last := none

-- What getline returns call after call: a line ends behind its newline, or at the end.
def getlines : List Byte → List (List Byte)
  | [] => []
  | c :: f =>
    if c = 10 then [c] :: getlines f
    else match getlines f with
      | [] => [[c]]
      | ll :: rest => (c :: ll) :: rest

-- The line from its last character on. The length is taken for an int.
def chompLoop : List Byte → List Byte
  | [] => []
  | c :: l =>
    if 0 < (BitVec.ofNat 32 (l.length + 1)).toInt ∧ (c = 10 ∨ c = 13) then chompLoop l
    else c :: l

def chomp (l : List Byte) : List Byte := (chompLoop l.reverse).reverse

-- The key and the value, unless the line is not one of a header.
def splitHeader (l : List Byte) : Option (List Byte × List Byte) :=
  let l := (Lib.cstr l).dropWhile (· = 32)
  match l.dropWhile (· ≠ 58) with
  | [] => none
  | _ :: cp =>
    if cp.headD 0 ≠ 32 then none
    else some (l.takeWhile (· ≠ 58), cp.dropWhile (· = 32))

namespace Headers

def modify (s : Headers) (p : Nat) (f : Hdrnode → Hdrnode) : Headers :=
  { s with nodes := Function.update s.nodes p ((s.nodes p).map f) }

-- A new node is put behind the last one.
def link (s : Headers) : Headers :=
  let node := s.fresh
  let nodes := Function.update s.nodes node (some ⟨none, none, none⟩)
  let s := { s with nodes, fresh := node + 1 }
  match s.last with
  | none => { s with head := some node }
  | some last => s.modify last fun n => { n with next := some node }

def free (s : Headers) (node : Nat) : Headers :=
  { s with nodes := Function.update s.nodes node none }

end Headers

-- The node is linked before the line is looked at.
def parseLine (s : Headers) (l : List Byte) : Headers :=
  let node := s.fresh
  let s := s.link
  match splitHeader l with
  | none => s.free node
  | some (key, value) =>
    let s := s.modify node fun n => { n with key := some key, value := some value }
    { s with last := some node }

def parseLoop : List (List Byte) → Headers → Headers × List (List Byte)
  | [], s => (s, [])
  | ll :: rest, s =>
    let l := chomp (Lib.strncpy ll ll.length)
    if l = [] then (s, rest) else parseLoop rest (parseLine s l)

-- The headers, and what is left of the stream.
def httpParseHeaders (file : List Byte) : Headers × List Byte :=
  let (s, rest) := parseLoop (getlines file) .start
  (s, rest.flatten)

structure Lookup where
  value : Option (List Byte)
  tempKeyParam : Option (List Byte)
deriving DecidableEq, Repr

-- A node that has been freed cannot be read. A list that ends has no more nodes than have
-- been allocated.
def lookupLoop (s : Headers) (key : List Byte) : Nat → Option Nat → Option Lookup
  | _, none => some ⟨none, none⟩
  | 0, some _ => none
  | steps + 1, some head => do
    let node ← s.nodes head
    let nodeKey ← node.key
    if Lib.strcasecmp nodeKey key = 0 then
      return ⟨node.value, some nodeKey⟩
    else
      lookupLoop s key steps node.next

def httpHeadersLookup (http : Option Headers) (key : Option (List Byte)) : Option Lookup :=
  match http, key with
  | some s, some key => lookupLoop s key s.fresh s.head
  | _, _ => some ⟨none, none⟩

end CSE320.Snarf
