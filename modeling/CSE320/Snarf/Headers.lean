import CSE320.Lib.Chain
import CSE320.Snarf.HeaderLines
import Mathlib.Data.List.Find
import Mathlib.Data.List.Perm.Subperm

namespace CSE320.Snarf

open Lib (Byte)

namespace Headers

-- Where a node leads, and what it holds. A freed node does neither.
def next (s : Headers) (x : Nat) : Option Nat := (s.nodes x).bind Hdrnode.next

def pair (s : Headers) (x : Nat) : Option (List Byte × List Byte) := do
  let node ← s.nodes x
  return (← node.key, ← node.value)

-- The list with these pairs, in this order.
def Listed (s : Headers) (pairs : List (List Byte × List Byte)) : Prop :=
  ∃ xs, Lib.Chain s.next s.head xs ∧ xs.map s.pair = pairs.map some

-- The nodes of the headers up to the last one, and where that one leads.
structure Linked (s : Headers) (xs : List Nat) (q : Option Nat) : Prop where
  segment : Lib.Segment s.next s.head xs q
  last : s.last = xs.getLast?
  nodup : xs.Nodup
  bound : ∀ x ∈ xs, x < s.fresh

-- Behind the last header there is NULL, or a node that has been freed.
def Holds (s : Headers) (pairs : List (List Byte × List Byte)) (dangling : Bool) : Prop :=
  ∃ xs q, Linked s xs q ∧ xs.map s.pair = pairs.map some ∧
    if dangling then ∃ d, q = some d ∧ s.nodes d = none else q = none

end Headers

open Headers

section

variable {s : Headers} {xs front : List Nat} {x : Nat} {q : Option Nat}
  {pairs pairs' : List (List Byte × List Byte)} {dangling : Bool} {l : List Byte}

theorem next_congr {s' : Headers} (h : s'.nodes x = s.nodes x) : s'.next x = s.next x := by
  rw [Headers.next, h, Headers.next]

theorem pair_congr {s' : Headers} (h : s'.nodes x = s.nodes x) : s'.pair x = s.pair x := by
  rw [Headers.pair, h, Headers.pair]

theorem link_first (h : s.last = none) :
    s.link = { s with
      nodes := Function.update s.nodes s.fresh (some ⟨none, none, none⟩)
      fresh := s.fresh + 1
      head := some s.fresh } := by
  unfold Headers.link
  rw [h]

theorem link_behind (h : s.last = some x) {node : Hdrnode} (hnode : s.nodes x = some node)
    (hne : x ≠ s.fresh) :
    s.link = { s with
      nodes := Function.update (Function.update s.nodes s.fresh (some ⟨none, none, none⟩)) x
        (some { node with next := some s.fresh })
      fresh := s.fresh + 1 } := by
  unfold Headers.link Headers.modify
  rw [h]
  simp only [Function.update_of_ne hne, hnode, Option.map_some]

-- A new node stands behind the headers, which keep what they hold.
theorem link_spec (h : Linked s xs q) (hlive : ∀ x ∈ xs, (s.nodes x).isSome) :
    Linked s.link xs (some s.fresh) ∧ (∀ x ∈ xs, s.link.pair x = s.pair x) ∧
      s.link.nodes s.fresh = some ⟨none, none, none⟩ ∧ s.link.fresh = s.fresh + 1 := by
  cases hlast : s.last with
  | none =>
      have hnil : xs = [] := by
        rw [h.last] at hlast
        exact List.getLast?_eq_none_iff.mp hlast
      subst hnil
      rw [link_first hlast]
      refine ⟨⟨rfl, hlast, List.nodup_nil, nofun⟩, nofun, ?_, rfl⟩
      exact Function.update_self _ _ _
  | some x =>
      obtain ⟨front, rfl⟩ := List.getLast?_eq_some_iff.mp (h.last.symm.trans hlast)
      have hmem : x ∈ front ++ [x] := List.mem_append_right front (List.mem_singleton_self x)
      obtain ⟨node, hnode⟩ := Option.isSome_iff_exists.mp (hlive x hmem)
      have hfresh (y : Nat) (hy : y ∈ front ++ [x]) : y ≠ s.fresh := (h.bound y hy).ne
      have hlink := link_behind hlast hnode (hfresh x hmem)
      have hself : s.link.nodes x = some { node with next := some s.fresh } := by
        rw [hlink]
        exact Function.update_self _ _ _
      have hother (y : Nat) (hy : y ≠ x) (hyf : y ≠ s.fresh) : s.link.nodes y = s.nodes y := by
        rw [hlink]
        exact (Function.update_of_ne hy _ _).trans (Function.update_of_ne hyf _ _)
      have hfront (y : Nat) (hy : y ∈ front) : s.link.nodes y = s.nodes y := by
        refine hother y ?_ (hfresh y (List.mem_append_left [x] hy))
        rintro rfl
        exact (List.disjoint_of_nodup_append h.nodup) hy (List.mem_singleton_self y)
      obtain ⟨hsegment, -⟩ := Lib.segment_concat.mp h.segment
      refine ⟨⟨Lib.segment_concat.mpr ⟨?_, ?_⟩, ?_, h.nodup, ?_⟩, fun y hy => ?_, ?_, ?_⟩
      · rw [hlink] at hfront ⊢
        exact hsegment.congr fun y hy => next_congr (hfront y hy)
      · rw [Headers.next, hself]
        rfl
      · rw [hlink]
        exact h.last
      · rw [hlink]
        exact fun y hy => Nat.lt_succ_of_lt (h.bound y hy)
      · rcases List.mem_append.mp hy with hy | hy
        · exact pair_congr (hfront y hy)
        · obtain rfl := List.mem_singleton.mp hy
          rw [Headers.pair, hself, Headers.pair, hnode]
          rfl
      · rw [hlink]
        exact (Function.update_of_ne (hfresh x hmem).symm _ _).trans (Function.update_self _ _ _)
      · rw [hlink]

theorem live_of_pairs (h : xs.map s.pair = pairs.map some) : ∀ x ∈ xs, (s.nodes x).isSome := by
  intro x hx
  have hmem : s.pair x ∈ pairs.map some := h ▸ List.mem_map_of_mem hx
  obtain ⟨pair, -, hpair⟩ := List.mem_map.mp hmem
  cases hnode : s.nodes x with
  | none =>
      rw [Headers.pair, hnode] at hpair
      cases hpair
  | some node => rfl

-- Nodes that are not touched stay linked.
theorem Headers.Linked.congr {s' : Headers} (h : Linked s xs q) (hhead : s'.head = s.head)
    (hlast : s'.last = s.last) (hfresh : s'.fresh = s.fresh)
    (hnodes : ∀ x ∈ xs, s'.nodes x = s.nodes x) : Linked s' xs q := by
  refine ⟨?_, ?_, h.nodup, ?_⟩
  · rw [hhead]
    exact h.segment.congr fun y hy => next_congr (hnodes y hy)
  · rw [hlast]
    exact h.last
  · rw [hfresh]
    exact h.bound

-- A line that is no header.
theorem parseLine_illFormed (h : Holds s pairs dangling) (hsplit : splitHeader l = none) :
    Holds (parseLine s l) pairs true := by
  obtain ⟨xs, q, hlinked, hpairs, -⟩ := h
  obtain ⟨hlink, hkept, -, hfresh⟩ := link_spec hlinked (live_of_pairs hpairs)
  have hsame (x : Nat) (hx : x ∈ xs) : (s.link.free s.fresh).nodes x = s.link.nodes x :=
    Function.update_of_ne (hlinked.bound x hx).ne _ _
  unfold parseLine
  rw [hsplit]
  refine ⟨xs, some s.fresh, hlink.congr rfl rfl rfl hsame, ?_, s.fresh, rfl, ?_⟩
  · rw [← hpairs]
    exact List.map_congr_left fun x hx => (pair_congr (hsame x hx)).trans (hkept x hx)
  · exact Function.update_self _ _ _

theorem parseLine_eq {pair : List Byte × List Byte} (hsplit : splitHeader l = some pair)
    (hnode : s.link.nodes s.fresh = some ⟨none, none, none⟩) :
    parseLine s l = { s.link with
      nodes := Function.update s.link.nodes s.fresh (some ⟨some pair.1, some pair.2, none⟩)
      last := some s.fresh } := by
  unfold parseLine Headers.modify
  rw [hsplit]
  simp only [hnode, Option.map_some]

-- A header is the new last one.
theorem parseLine_header (h : Holds s pairs dangling) {pair : List Byte × List Byte}
    (hsplit : splitHeader l = some pair) : Holds (parseLine s l) (pairs ++ [pair]) false := by
  obtain ⟨xs, q, hlinked, hpairs, -⟩ := h
  obtain ⟨hlink, hkept, hnode, hfresh⟩ := link_spec hlinked (live_of_pairs hpairs)
  have hparse := parseLine_eq hsplit hnode
  have hne (x : Nat) (hx : x ∈ xs) : x ≠ s.fresh := (hlinked.bound x hx).ne
  have hsame (x : Nat) (hx : x ∈ xs) : (parseLine s l).nodes x = s.link.nodes x := by
    rw [hparse]
    exact Function.update_of_ne (hne x hx) _ _
  have hself : (parseLine s l).nodes s.fresh = some ⟨some pair.1, some pair.2, none⟩ := by
    rw [hparse]
    exact Function.update_self _ _ _
  refine ⟨xs ++ [s.fresh], none, ⟨Lib.segment_concat.mpr ⟨?_, ?_⟩, ?_, ?_, ?_⟩, ?_, rfl⟩
  · rw [hparse] at hsame ⊢
    exact hlink.segment.congr fun x hx => next_congr (hsame x hx)
  · rw [Headers.next, hself]
    rfl
  · rw [hparse, List.getLast?_concat]
  · apply List.Nodup.append hlinked.nodup (List.nodup_singleton s.fresh)
    rw [List.disjoint_singleton]
    exact fun hmem => hne _ hmem rfl
  · rw [hparse]
    intro x hx
    show x < s.link.fresh
    rw [hfresh]
    rcases List.mem_append.mp hx with hx | hx
    · exact Nat.lt_succ_of_lt (hlinked.bound x hx)
    · rw [List.mem_singleton.mp hx]
      exact Nat.lt_succ_self _
  · rw [List.map_append, List.map_append, ← hpairs]
    congr 1
    · exact List.map_congr_left fun x hx => (pair_congr (hsame x hx)).trans (hkept x hx)
    · rw [List.map_singleton, Headers.pair, hself]
      rfl

theorem holds_start : Holds .start [] false :=
  ⟨[], none, ⟨rfl, rfl, List.nodup_nil, nofun⟩, rfl, rfl⟩

-- The whole run of the loop.
theorem parseLoop_holds {lines : List (List Byte)} (hlines : ∀ ll ∈ lines, ∀ c ∈ ll, c ≠ 0)
    (h : Holds s pairs dangling) :
    Holds (parseLoop lines s).1 (pairs ++ (outcome lines dangling).1)
      (outcome lines dangling).2 := by
  induction lines generalizing s pairs dangling with
  | nil =>
      rw [outcome, List.append_nil]
      exact h
  | cons ll rest ih =>
      have hrest := fun line hline => hlines line (List.mem_cons_of_mem ll hline)
      rw [parseLoop, outcome, Lib.strncpy_length (hlines ll List.mem_cons_self)]
      by_cases hblank : chomp ll = []
      · rw [if_pos hblank, if_pos hblank, List.append_nil]
        exact h
      · rw [if_neg hblank, if_neg hblank]
        cases hsplit : splitHeader (chomp ll) with
        | none => exact ih hrest (parseLine_illFormed h hsplit)
        | some pair =>
            have hnext := ih hrest (parseLine_header h hsplit)
            rw [List.append_assoc, List.singleton_append] at hnext
            exact hnext

-- A list that ends in NULL is that of its pairs, and one that ends in a freed node is none.
theorem listed_iff (h : Holds s pairs dangling) :
    Listed s pairs' ↔ pairs' = pairs ∧ dangling = false := by
  obtain ⟨xs, q, hlinked, hpairs, hend⟩ := h
  constructor
  · rintro ⟨ys, hchain, hys⟩
    obtain ⟨back, rfl, hback⟩ := hlinked.segment.chain hchain
    cases dangling with
    | false =>
        obtain rfl : q = none := hend
        cases back with
        | nil =>
            rw [List.append_nil, hpairs] at hys
            exact ⟨(List.map_injective_iff.mpr (Option.some_injective _) hys).symm, rfl⟩
        | cons x back => cases hback.1
    | true =>
        obtain ⟨d, rfl, hd⟩ := hend
        cases back with
        | nil => cases hback
        | cons x back =>
            obtain rfl := Option.some.inj hback.1
            have hmem : s.pair d ∈ pairs'.map some := by
              rw [← hys]
              exact List.mem_map_of_mem (List.mem_append_right xs List.mem_cons_self)
            rw [Headers.pair, hd] at hmem
            obtain ⟨pair, -, hpair⟩ := List.mem_map.mp hmem
            cases hpair
  · rintro ⟨rfl, rfl⟩
    obtain rfl : q = none := hend
    exact ⟨xs, Lib.segment_none.mp hlinked.segment, hpairs⟩

theorem pair_eq_some {pair : List Byte × List Byte} (h : s.pair x = some pair) :
    ∃ next, s.nodes x = some ⟨some pair.1, some pair.2, next⟩ := by
  unfold Headers.pair at h
  cases hnode : s.nodes x with
  | none =>
      rw [hnode] at h
      cases h
  | some node =>
      obtain ⟨key, value, next⟩ := node
      rw [hnode] at h
      cases key with
      | none => cases h
      | some key =>
          cases value with
          | none => cases h
          | some value =>
              obtain rfl := Option.some.inj h
              exact ⟨next, rfl⟩

-- What a lookup leaves for the first header with the key, and without one.
def found : Option (List Byte × List Byte) → Lookup
  | some pair => ⟨some pair.2, some pair.1⟩
  | none => ⟨none, none⟩

theorem lookupLoop_eq (key : List Byte) {steps : Nat} {p : Option Nat}
    (hchain : Lib.Chain s.next p xs) (hpairs : xs.map s.pair = pairs.map some)
    (hsteps : xs.length ≤ steps) :
    lookupLoop s key steps p =
      some (found (pairs.find? fun pair => Lib.strcasecmp pair.1 key = 0)) := by
  induction xs generalizing p pairs steps with
  | nil =>
      obtain rfl : p = none := hchain
      rw [List.map_nil, eq_comm, List.map_eq_nil_iff] at hpairs
      rw [hpairs, lookupLoop]
      rfl
  | cons x xs ih =>
      obtain ⟨rfl, hrest⟩ := hchain
      cases pairs with
      | nil => cases hpairs
      | cons pair pairs =>
          rw [List.map_cons, List.map_cons, List.cons.injEq] at hpairs
          obtain ⟨next, hnode⟩ := pair_eq_some hpairs.1
          cases steps with
          | zero => cases hsteps
          | succ steps =>
              have hnext : s.next x = next := by rw [Headers.next, hnode, Option.bind_some]
              rw [hnext] at hrest
              have htail := ih hrest hpairs.2 (Nat.le_of_succ_le_succ hsteps)
              rw [lookupLoop, hnode, List.find?_cons]
              by_cases hkey : Lib.strcasecmp pair.1 key = 0
              · simp [hkey, found]
              · simp [hkey, htail]

-- There are no more headers than nodes have been allocated.
theorem lookup_eq (h : Holds s pairs false) (key : List Byte) :
    httpHeadersLookup (some s) (some key) =
      some (found (pairs.find? fun pair => Lib.strcasecmp pair.1 key = 0)) := by
  obtain ⟨xs, q, hlinked, hpairs, hend⟩ := h
  obtain rfl : q = none := hend
  have hsubset : xs ⊆ List.range s.fresh := fun x hx => List.mem_range.mpr (hlinked.bound x hx)
  have hlength := (List.Nodup.subperm hlinked.nodup hsubset).length_le
  rw [List.length_range] at hlength
  exact lookupLoop_eq key (Lib.segment_none.mp hlinked.segment) hpairs hlength

-- The keys that strcasecmp takes for equal.
theorem find_key {key : List Byte} (hkey : ∀ c ∈ key, c ≠ 0)
    (hpairs : ∀ pair ∈ pairs, ∀ c ∈ pair.1, c ≠ 0) :
    (pairs.find? fun pair => Lib.strcasecmp pair.1 key = 0) =
      pairs.find? fun pair => pair.1.map Lib.tolower = key.map Lib.tolower := by
  apply List.find?_congr
  intro pair hpair
  apply decide_eq_decide.mpr
  rw [Lib.strcasecmp_eq_zero, Lib.cstr_eq_self (hpairs pair hpair), Lib.cstr_eq_self hkey]

end

-- The list of the headers of a stream, and the lookup of a key in it.
structure HeadersRight (file : List Byte) (pairs : List (List Byte × List Byte)) : Prop where
  listed : (httpParseHeaders file).1.Listed pairs
  lookup : ∀ key, (∀ c ∈ key, c ≠ 0) →
    (httpHeadersLookup (some (httpParseHeaders file).1) (some key)).map Lookup.value =
      some ((pairs.find? fun pair => pair.1.map Lib.tolower = key.map Lib.tolower).map Prod.snd)

-- The parser is right but for the streams whose last line is not well formed, and for lines
-- of 2 ^ 31 characters.
theorem headersRight_iff (file : List Byte) (hfile : ∀ c ∈ file, c ≠ 0) :
    (∀ pairs, HeaderPairs (getlines file) pairs → HeadersRight file pairs) ↔
      LinesFit (getlines file) := by
  have hlines : ∀ ll ∈ getlines file, ∀ c ∈ ll, c ≠ 0 := by
    intro ll hll c hc
    apply hfile c
    rw [← flatten_getlines file]
    exact List.mem_flatten_of_mem hll hc
  have hholds := parseLoop_holds hlines holds_start
  rw [List.nil_append] at hholds
  have hfits := outcome_iff hlines false
  constructor
  · intro h
    obtain ⟨pairs, hpairs⟩ := exists_headerPairs (getlines file)
    obtain ⟨hsame, hdangling⟩ := (listed_iff hholds).mp (h pairs hpairs).listed
    exact (hfits.mp ⟨pairs, hpairs, Prod.ext hsame.symm hdangling⟩).2
  · intro hfit pairs hpairs
    obtain ⟨pairs', hpairs', houtcome⟩ := hfits.mpr ⟨fun _ => rfl, hfit⟩
    obtain rfl := hpairs.unique hlines hpairs'
    rw [houtcome] at hholds
    refine ⟨(listed_iff hholds).mpr ⟨rfl, rfl⟩, fun key hkey => ?_⟩
    show (httpHeadersLookup (some (parseLoop (getlines file) .start).1) _).map _ = _
    rw [lookup_eq hholds, find_key hkey (hpairs.key_ne_zero hlines), Option.map_some]
    cases pairs.find? fun pair => pair.1.map Lib.tolower = key.map Lib.tolower with
    | none => rfl
    | some pair => rfl

theorem headersRight_of_last_header :
    HeadersRight (Lib.ascii "bad\r\nkey: v\r\n\r\n") [(Lib.ascii "key", Lib.ascii "v")] := by
  have hlines : getlines (Lib.ascii "bad\r\nkey: v\r\n\r\n") =
      [Lib.ascii "bad\r\n", Lib.ascii "key: v\r\n", Lib.ascii "\r\n"] := by decide
  have hkey : IsHeader (content (Lib.ascii "key: v\r\n")) (Lib.ascii "key") (Lib.ascii "v") :=
    ⟨⟨0, 0, by decide⟩, by decide, by decide, by decide⟩
  have hbad : ¬WellFormed (Lib.ascii "bad\r\n") := by
    rintro ⟨key, value, hheader⟩
    have hsplit := (splitHeader_eq_some (by decide)).mpr hheader
    rw [show splitHeader (content (Lib.ascii "bad\r\n")) = none by decide] at hsplit
    cases hsplit
  have hshort (ll : List Byte) (h : ll.length ≤ 8) : Measured ll :=
    measured_of_short (lt_of_le_of_lt h (by decide))
  apply (headersRight_iff _ (by decide)).mpr
  · rw [hlines, linesFit_cons (by decide), linesFit_cons (by decide), linesFit_blank (by decide)]
    refine ⟨?_, ?_, ?_, ?_, ?_⟩
    · rw [headerLines_cons (by decide)]
      exact nofun
    · exact fun _ => hshort _ (by decide)
    · exact fun _ => ⟨_, _, hkey⟩
    · exact fun _ => hshort _ (by decide)
    · exact hshort _ (by decide)
  · rw [hlines]
    exact .illFormed (by decide) hbad (.header hkey (.blank (by decide)))

-- A line that is not well formed is the last one.
theorem not_headersRight :
    ¬∀ pairs, HeaderPairs (getlines (Lib.ascii "a: b\nbad\n")) pairs →
      HeadersRight (Lib.ascii "a: b\nbad\n") pairs := by
  intro h
  obtain ⟨pairs, hpairs⟩ := exists_headerPairs (getlines (Lib.ascii "a: b\nbad\n"))
  have hlines : ∀ ll ∈ getlines (Lib.ascii "a: b\nbad\n"), ∀ c ∈ ll, c ≠ 0 := by decide
  have hholds := parseLoop_holds hlines holds_start
  have hdangling : (outcome (getlines (Lib.ascii "a: b\nbad\n")) false).2 = true := by decide
  have hlisted := (listed_iff hholds).mp (h pairs hpairs).listed
  rw [hdangling] at hlisted
  cases hlisted.2

end CSE320.Snarf
