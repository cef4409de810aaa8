import CSE320.Lib.Format
import CSE320.Lib.Run

namespace CSE320.Spooler

open Lib (Byte)

-- A string without the NUL at its end.
abbrev Word := List Byte

-- What ends the process: a NULL pointer is used, one of the arrays queue and result is left,
-- the buffer of a message is left, exit is called, or another program is executed in its
-- place. A function that does not come to its end has the fourth one.
inductive Fault where
  | nullPointer
  | outOfBounds
  | overflow
  | unfinished
  | exited (status : Nat)
  | replaced
deriving DecidableEq, Repr

structure Conv where
  dest : Word
  convProg : Word
  args : List Word
deriving DecidableEq, Repr

structure Node where
  data : Word
  visited : Bool
  conv : List Conv
deriving DecidableEq, Repr

-- The list of file types, and the arrays queue and result from the entry at loc or
-- res_loc down to the first one. An empty list is an index of -1.
structure Search where
  head : List Node
  queue : List Word
  result : List Word
deriving DecidableEq, Repr

-- A call of bfs with the state that it finds.
structure SearchCall where
  src : Word
  dest : Word
  list : Search
deriving DecidableEq, Repr

-- A pointer into the list is an index.
def searchList (head : List Node) (node : Word) : Option Nat := head.findIdx? fun n => n.data = node

-- The search from a node on.
def searchFrom (head : List Node) (start : Nat) (node : Word) : Option Nat :=
  (searchList (head.drop start) node).map (· + start)

def searchConv (head : List Conv) (node : Word) : Option Conv := head.find? fun c => c.dest = node

def resetVisited (head : List Node) : List Node := head.map fun n => { n with visited := false }

section

variable (inBounds : Nat → Bool)

-- The value is stored behind the last entry of an array.
def push (value : Word) (array : List Word) : Except Fault (List Word) :=
  if inBounds array.length then .ok (value :: array) else .error .outOfBounds

-- A conversion is followed only to a type that is declared behind the node, unless it
-- leads to the destination.
def look (dest : Word) : Nat → Option Nat → Search → Except Fault Search
  | 0, _, _ => .error .unfinished
  | _ + 1, none, s => .ok s
  | fuel + 1, some node, s =>
    match s.head[node]? with
    | none => .error .nullPointer
    | some n =>
      if n.visited then .ok s
      else do
        let queue ← push inBounds n.data s.queue
        let s := { s with queue, head := s.head.set node { n with visited := true } }
        if n.data = dest then .ok s
        else if (searchConv n.conv dest).isSome then look dest fuel (searchList s.head dest) s
        else n.conv.foldlM (fun s temp => look dest fuel (searchFrom s.head node temp.dest) s) s

-- The entries of the queue from loc down. Each one that has a conversion to the last
-- entry of the result is appended to it.
def backtrack (head : List Node) : List Word → List Word → Except Fault (List Word)
  | [], result => .ok result
  | entry :: queue, result =>
    match (searchList head entry).bind (head[·]?), result with
    | none, _ => .error .nullPointer
    | some _, [] => .error .outOfBounds
    | some node, last :: _ =>
      if (searchConv node.conv last).isSome then do
        let result ← push inBounds entry result
        backtrack head queue result
      else
        backtrack head queue result

def bfs (src dest : Word) (s : Search) : Except Fault Search :=
  if src = dest then do
    let result ← push inBounds src s.result
    .ok { s with result }
  else do
    let head := resetVisited s.head
    let s ← look inBounds dest (head.length + 1) (searchList head src) { s with head, result := [] }
    -- look for the dest
    match s.queue.dropWhile (· ≠ dest) with
    | [] => .ok { s with queue := [] }
    | entry :: queue =>
      let result ← push inBounds dest []
      if queue = [] then .ok { s with queue := [entry], result }
      else do
        let result ← backtrack inBounds s.head (entry :: queue) result
        -- backtrack gives you the value in reverse
        .ok { s with queue := [], result := result.reverse }

end

end CSE320.Spooler
