import CSE320.Lib.CString
import Mathlib.Data.List.GetD

namespace CSE320.Snarf

open Lib (Byte)

-- The path is the literal "/" or lies in the working storage.
inductive Path where
  | slash
  | stuff (cp : Nat)
deriving DecidableEq, Repr

structure Url where
  stuff : List Byte
  method : Option (List Byte)
  hostname : Option (List Byte)
  port : BitVec 32
  path : Option Path
  dnsdone : BitVec 32
  addr : BitVec 32
deriving DecidableEq, Repr

def urlInit : Url where
  stuff := []
  method := none
  hostname := none
  port := 0
  path := none
  dnsdone := 0
  addr := 0

namespace Url

-- Pointers into the working storage are places in it.
def char (up : Url) (cp : Nat) : Byte := up.stuff.getD cp 0

def store (up : Url) (cp : Nat) (c : Byte) : Url := { up with stuff := up.stuff.set cp c }

def string (up : Url) (cp : Nat) : List Byte := Lib.cstr (up.stuff.drop cp)

-- The pointer moves over characters of a kind, which does not include NUL.
def skip (up : Url) (kind : Byte → Bool) (cp : Nat) : Nat :=
  cp + ((up.stuff.drop cp).takeWhile kind).length

end Url

-- The method in front of a colon that comes before the first slash.
def parseMethod (up : Url) (cp colon slash : Nat) : Url × Nat :=
  if colon < slash then
    let up := up.store colon 0
    let method := up.string cp
    let port := if Lib.strcasecmp method (Lib.ascii "http") = 0 then 80 else up.port
    ({ up with method := some method, port }, colon + 1)
  else
    (up, cp)

def parsePort (up : Url) (cp : Nat) : Url × Nat :=
  if up.char cp = 58 then
    let cp1 := cp + 1
    let cp := up.skip (Lib.isDigit 10) cp1
    let c := up.char cp
    let up := up.store cp 0
    let up := { up with port := Lib.atoi (up.string cp1) }
    (up.store cp c, cp)
  else
    (up, cp)

-- The host between two slashes and the next slash, colon or the end.
def parseHost (up : Url) (cp slash : Nat) : Url × Nat :=
  if up.char (slash + 1) = 47 then
    let cp := up.skip (fun c => c ≠ 0 && c ≠ 58 && c ≠ 47) (slash + 2)
    let c := up.char cp
    let up := up.store cp 0
    let up := { up with hostname := some (up.string (slash + 2)) }
    parsePort (up.store cp c) cp
  else
    (up, cp)

-- There is always enough memory for malloc and strdup.
def urlParse (url : Option (List Byte)) : Option Url := do
  let url ← url
  let up := { urlInit with stuff := Lib.cstr url ++ [0] }
  let cp := 0
  match Lib.strchr up.stuff 58, Lib.strchr up.stuff 47 with
  | some colon, some slash =>
    let (up, cp) := parseMethod up cp colon slash
    let (up, cp) := parseHost up cp slash
    return { up with path := some (if up.char cp = 0 then .slash else .stuff cp) }
  | _, _ => return { up with path := some (.stuff cp) }

def urlMethod (up : Option Url) : Option (List Byte) := do (← up).method

def urlHostname (up : Option Url) : Option (List Byte) := do (← up).hostname

def urlPort (up : Option Url) : Int :=
  match up with
  | none => -1
  | some up => up.port.toInt

def urlPath (up : Option Url) : Option (List Byte) := do
  let up ← up
  match ← up.path with
  | .slash => return [47]
  | .stuff cp => return up.string cp

section

variable {up : Url} {front word rest : List Byte} {c : Byte}

theorem char_at (h : up.stuff = front ++ c :: rest) : up.char front.length = c := by
  rw [Url.char, h, List.getD_append_right _ _ _ _ (le_refl _), Nat.sub_self, List.getD_cons_zero]

theorem store_at (h : up.stuff = front ++ c :: rest) (b : Byte) :
    up.store front.length b = { up with stuff := front ++ b :: rest } := by
  rw [Url.store, h, List.set_append_right _ _ (le_refl _), Nat.sub_self, List.set_cons_zero]

theorem string_at (h : up.stuff = front ++ rest) : up.string front.length = Lib.cstr rest := by
  rw [Url.string, h, List.drop_left]

theorem skip_at {kind : Byte → Bool} (h : up.stuff = front ++ (word ++ c :: rest))
    (hword : ∀ a ∈ word, kind a = true) (hc : ¬kind c = true) :
    up.skip kind front.length = (front ++ word).length := by
  rw [Url.skip, h, List.drop_left, List.takeWhile_append_of_pos hword,
    List.takeWhile_cons_of_neg hc, List.append_nil, List.length_append]

-- A word is copied while a NUL stands in the place of the character behind it.
theorem string_stored (h : up.stuff = front ++ (word ++ c :: rest)) (hword : ∀ a ∈ word, a ≠ 0) :
    (up.store (front ++ word).length 0).string front.length = word := by
  rw [← List.append_assoc] at h
  rw [store_at h, string_at (List.append_assoc front word (0 :: rest)), Lib.cstr_append hword]

-- The character that stood there comes back.
theorem store_back {up' : Url} (h : up.stuff = front ++ c :: rest)
    (h' : up'.stuff = front ++ 0 :: rest) :
    up'.store front.length c = { up' with stuff := up.stuff } := by
  rw [store_at h', h]

theorem char_ne_zero_of_digit {a : Byte} (h : Lib.isDigit 10 a = true) : a ≠ 0 := by
  rintro rfl
  exact absurd h (by decide)

theorem parsePort_none (h : up.char front.length ≠ 58) :
    parsePort up front.length = (up, front.length) := if_neg h

-- The digits behind a colon.
theorem parsePort_at (h : up.stuff = front ++ 58 :: (word ++ c :: rest))
    (hword : ∀ a ∈ word, Lib.isDigit 10 a = true) (hc : ¬Lib.isDigit 10 c = true) :
    parsePort up front.length =
      ({ up with port := Lib.atoi word }, (front ++ 58 :: word).length) := by
  have hplace : front.length + 1 = (front ++ [58]).length := by
    rw [List.length_append, List.length_singleton]
  have hdigits : up.stuff = (front ++ [58]) ++ (word ++ c :: rest) := by
    rw [h, List.append_assoc, List.singleton_append]
  have hend : up.stuff = ((front ++ [58]) ++ word) ++ c :: rest := by
    rw [hdigits, List.append_assoc _ word]
  unfold parsePort
  rw [if_pos (char_at h)]
  dsimp only
  rw [hplace, skip_at hdigits hword hc, char_at hend,
    string_stored hdigits fun a ha => char_ne_zero_of_digit (hword a ha), store_at hend]
  apply Prod.ext
  · exact store_back hend rfl
  · show (front ++ [58] ++ word).length = (front ++ 58 :: word).length
    rw [List.append_assoc, List.singleton_append]

-- The host behind two slashes.
theorem parseHost_at (cp : Nat) (h : up.stuff = front ++ 47 :: 47 :: (word ++ c :: rest))
    (hword : ∀ a ∈ word, a ≠ 0 ∧ a ≠ 58 ∧ a ≠ 47) (hc : c = 0 ∨ c = 58 ∨ c = 47) :
    parseHost up cp front.length =
      parsePort { up with hostname := some word } (front ++ 47 :: 47 :: word).length := by
  have hslash : up.stuff = (front ++ [47]) ++ 47 :: (word ++ c :: rest) := by
    rw [h, List.append_assoc, List.singleton_append]
  have hhost : up.stuff = (front ++ [47, 47]) ++ (word ++ c :: rest) := by
    rw [h, List.append_assoc]
    rfl
  have hend : up.stuff = ((front ++ [47, 47]) ++ word) ++ c :: rest := by
    rw [hhost, List.append_assoc _ word]
  have hone : front.length + 1 = (front ++ [47]).length := by
    rw [List.length_append, List.length_singleton]
  have htwo : front.length + 2 = (front ++ [47, 47]).length := by
    rw [List.length_append]
    rfl
  unfold parseHost
  rw [hone, if_pos (char_at hslash)]
  dsimp only
  rw [htwo, skip_at hhost, char_at hend, string_stored hhost fun a ha => (hword a ha).1,
    store_at hend]
  · apply congrArg₂ parsePort
    · exact store_back hend rfl
    · rw [List.append_assoc]
      rfl
  · intro a ha
    obtain ⟨hnul, hcolon, hslash⟩ := hword a ha
    simp only [Bool.and_eq_true, decide_eq_true_eq]
    exact ⟨⟨hnul, hcolon⟩, hslash⟩
  · rcases hc with rfl | rfl | rfl
    · decide
    · decide
    · decide

-- The method in front of the first colon.
theorem parseMethod_at {slash : Nat} (h : up.stuff = word ++ 58 :: rest)
    (hword : ∀ a ∈ word, a ≠ 0) (hslash : word.length < slash) :
    parseMethod up 0 word.length slash =
      ({ up with
          stuff := word ++ 0 :: rest
          method := some word
          port := if word.map Lib.tolower = Lib.ascii "http" then 80 else up.port },
        word.length + 1) := by
  have hcase : Lib.strcasecmp word (Lib.ascii "http") = 0 ↔
      word.map Lib.tolower = Lib.ascii "http" := by
    rw [Lib.strcasecmp_eq_zero, Lib.cstr_eq_self hword]
    exact Iff.rfl
  have hmethod : ({ up with stuff := word ++ 0 :: rest } : Url).string 0 = word := by
    show Lib.cstr (word ++ 0 :: rest) = word
    exact Lib.cstr_append hword rest
  unfold parseMethod
  rw [if_pos hslash, store_at h]
  dsimp only
  rw [hmethod]
  simp only [hcase]

end

end CSE320.Snarf
