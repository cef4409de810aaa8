import CSE320.Spooler.Path
import Mathlib.Data.Set.Card
import Mathlib.Logic.Relation

namespace CSE320.Spooler

open Relation (ReflTransGen)

def Marked (head : List Node) (i : Nat) : Prop := ∃ n, head[i]? = some n ∧ n.visited = true

-- The nodes that a visit of a node looks at.
def Leads (head : List Node) (dest : Word) (i j : Nat) : Prop :=
  ∃ n, head[i]? = some n ∧ n.data ≠ dest ∧
    if (searchConv n.conv dest).isSome then searchList head dest = some j
    else ∃ c ∈ n.conv, searchFrom head i c.dest = some j

-- The types that a path search comes to.
def Reached (head : List Node) (src dest : Word) : Set Nat :=
  {j | ∃ i, searchList head src = some i ∧ ReflTransGen (Leads head dest) i j}

theorem searchList_of_graph {head head' : List Node} (h : resetVisited head' = resetVisited head)
    (node : Word) :
    searchList head' node = searchList head node := by
  have hreset (l : List Node) : searchList (resetVisited l) node = searchList l node := by
    simp only [searchList, resetVisited, List.findIdx?_map]
    rfl
  rw [← hreset head', h, hreset head]

theorem resetVisited_drop (head : List Node) (start : Nat) :
    resetVisited (head.drop start) = (resetVisited head).drop start := by
  simp only [resetVisited, List.map_drop]

theorem searchFrom_of_graph {head head' : List Node} (h : resetVisited head' = resetVisited head)
    (start : Nat) (node : Word) : searchFrom head' start node = searchFrom head start node := by
  have hdrop : resetVisited (head'.drop start) = resetVisited (head.drop start) := by
    rw [resetVisited_drop, h, resetVisited_drop]
  rw [searchFrom, searchFrom, searchList_of_graph hdrop]

theorem get_of_graph {head head' : List Node} (h : resetVisited head' = resetVisited head)
    {i : Nat} {n : Node} (hn : head[i]? = some n) :
    ∃ n', head'[i]? = some n' ∧ n'.data = n.data ∧ n'.conv = n.conv := by
  have hreset : (resetVisited head')[i]? = some { n with visited := false } := by
    rw [h, resetVisited, List.getElem?_map, hn]
    rfl
  rw [resetVisited, List.getElem?_map] at hreset
  obtain ⟨n', hn', hsame⟩ := Option.map_eq_some_iff.mp hreset
  obtain ⟨hdata, -, hconv⟩ := Node.mk.inj hsame
  exact ⟨n', hn', hdata, hconv⟩

theorem Leads.of_graph {head head' : List Node} (h : resetVisited head' = resetVisited head)
    {dest : Word} {i j : Nat} (hleads : Leads head dest i j) : Leads head' dest i j := by
  obtain ⟨n, hn, hne, hnext⟩ := hleads
  obtain ⟨n', hn', hdata, hconv⟩ := get_of_graph h hn
  refine ⟨n', hn', hdata ▸ hne, ?_⟩
  rw [hconv, searchList_of_graph h]
  simp only [searchFrom_of_graph h]
  exact hnext

theorem leads_of_graph {head head' : List Node} (h : resetVisited head' = resetVisited head)
    (dest : Word) :
    Leads head' dest = Leads head dest := by
  funext i j
  exact propext ⟨Leads.of_graph h.symm, Leads.of_graph h⟩

theorem marked_mark {s : Search} {node : Nat} {n : Node} (hn : s.head[node]? = some n) (i : Nat) :
    Marked (mark node n s).head i ↔ i = node ∨ Marked s.head i := by
  obtain ⟨hlt, rfl⟩ := List.getElem?_eq_some_iff.mp hn
  simp only [Marked, mark, List.getElem?_set]
  by_cases h : node = i
  · subst h
    simp [hlt]
  · simp [h, Ne.symm h]

-- What visits that begin at some nodes do: every node that they mark is reached from
-- these, and every node behind it is marked in the end.
structure Visits (dest : Word) (start : Set Nat) (s s' : Search) : Prop where
  graph : resetVisited s'.head = resetVisited s.head
  kept : ∀ i, Marked s.head i → Marked s'.head i
  begun : ∀ i ∈ start, Marked s'.head i
  count : s'.queue.length + unvisited s'.head = s.queue.length + unvisited s.head
  reached : ∀ j, Marked s'.head j → Marked s.head j ∨
    ∃ i ∈ start, ReflTransGen (Leads s.head dest) i j
  closed : ∀ j k, Marked s'.head j → ¬Marked s.head j → Leads s.head dest j k → Marked s'.head k

theorem Visits.refl (dest : Word) (s : Search) : Visits dest ∅ s s where
  graph := rfl
  kept := fun _ h => h
  begun := fun _ h => nomatch h
  count := rfl
  reached := fun _ h => Or.inl h
  closed := fun _ _ h hnot => absurd h hnot

theorem Visits.of_marked {dest : Word} {s : Search} {i : Nat} (h : Marked s.head i) :
    Visits dest {i} s s where
  graph := rfl
  kept := fun _ h => h
  begun := fun _ hj => Set.mem_singleton_iff.mp hj ▸ h
  count := rfl
  reached := fun _ h => Or.inl h
  closed := fun _ _ h hnot => absurd h hnot

theorem Visits.trans {dest : Word} {start start' : Set Nat} {s s' s'' : Search}
    (h : Visits dest start s s') (h' : Visits dest start' s' s'') :
    Visits dest (start ∪ start') s s'' where
  graph := h'.graph.trans h.graph
  kept := fun i hi => h'.kept i (h.kept i hi)
  begun := fun i hi => by
    rcases hi with hi | hi
    · exact h'.kept i (h.begun i hi)
    · exact h'.begun i hi
  count := h'.count.trans h.count
  reached := fun j hj => by
    have hleads := leads_of_graph h.graph dest
    rcases h'.reached j hj with hj | ⟨i, hi, hpath⟩
    · rcases h.reached j hj with hj | ⟨i, hi, hpath⟩
      · exact Or.inl hj
      · exact Or.inr ⟨i, Or.inl hi, hpath⟩
    · exact Or.inr ⟨i, Or.inr hi, hleads ▸ hpath⟩
  closed := fun j k hj hnot hjk => by
    by_cases hmiddle : Marked s'.head j
    · exact h'.kept k (h.closed j k hmiddle hnot hjk)
    · exact h'.closed j k hj hmiddle (hjk.of_graph h.graph)

-- A visit of a node that is not marked yet is one of all nodes behind it.
theorem Visits.of_mark {dest : Word} {s s' : Search} {node : Nat} {n : Node}
    (hn : s.head[node]? = some n) (hfresh : n.visited = false)
    (h : Visits dest {k | Leads s.head dest node k} (mark node n s) s') :
    Visits dest {node} s s' where
  graph := h.graph.trans (graph_mark hn)
  kept := fun i hi => h.kept i ((marked_mark hn i).mpr (Or.inr hi))
  begun := fun i hi => h.kept i ((marked_mark hn i).mpr (Or.inl hi))
  count := by
    have hcount := h.count
    have hless := unvisited_mark hn hfresh
    have hqueue : (mark node n s).queue.length = s.queue.length + 1 := rfl
    omega
  reached := fun j hj => by
    have hleads := leads_of_graph (graph_mark hn) dest
    rcases h.reached j hj with hj | ⟨i, hi, hpath⟩
    · rcases (marked_mark hn j).mp hj with rfl | hj
      · exact Or.inr ⟨j, rfl, .refl⟩
      · exact Or.inl hj
    · exact Or.inr ⟨node, rfl, .head hi (hleads ▸ hpath)⟩
  closed := fun j k hj hnot hjk => by
    by_cases hmiddle : Marked (mark node n s).head j
    · rcases (marked_mark hn j).mp hmiddle with rfl | hj
      · exact h.begun k hjk
      · exact absurd hj hnot
    · exact h.closed j k hj hmiddle (hjk.of_graph (graph_mark hn))

section

variable {inBounds : Nat → Bool} {dest : Word}

theorem push_eq_ok {value : Word} {array r : List Word} :
    push inBounds value array = .ok r ↔ inBounds array.length = true ∧ r = value :: array := by
  unfold push
  split
  · rename_i h
    simp [h, eq_comm]
  · rename_i h
    simp [h]

-- The loop over the conversions of a node.
theorem foldlM_visits {body : Search → Conv → Except Fault Search} {next : Conv → Option Nat}
    {head : List Node} (hbody : ∀ t temp t', resetVisited t.head = resetVisited head →
      body t temp = .ok t' →
      Visits dest {k | next temp = some k} t t') (conv : List Conv) {s s' : Search}
    (hs : resetVisited s.head = resetVisited head) (h : conv.foldlM body s = .ok s') :
    Visits dest {k | ∃ c ∈ conv, next c = some k} s s' := by
  induction conv generalizing s with
  | nil =>
      obtain rfl := Except.ok.inj h
      simpa using Visits.refl dest s
  | cons c conv ih =>
      rw [List.foldlM_cons] at h
      obtain ⟨t, hfirst, hrest⟩ := Lib.bind_ok h
      have hvisits := hbody s c t hs hfirst
      have hboth := hvisits.trans (ih (hvisits.graph.trans hs) hrest)
      have hset : {k | next c = some k} ∪ {k | ∃ c ∈ conv, next c = some k} =
          {k | ∃ b ∈ c :: conv, next b = some k} := by
        ext k
        simp
      rwa [hset] at hboth

theorem look_visits {fuel : Nat} {node : Option Nat} {s s' : Search}
    (h : look inBounds dest fuel node s = .ok s') :
    Visits dest {k | node = some k} s s' := by
  induction fuel generalizing node s s' with
  | zero => cases h
  | succ fuel ih =>
      cases node with
      | none =>
          obtain rfl := Except.ok.inj h
          simpa using Visits.refl dest s
      | some i =>
          have hsingle : {k | some i = some k} = ({i} : Set Nat) := by
            ext k
            simp [eq_comm]
          rw [hsingle]
          rw [look] at h
          split at h
          · cases h
          · rename_i n hn
            split at h
            · rename_i hvisited
              obtain rfl := Except.ok.inj h
              exact .of_marked ⟨n, hn, hvisited⟩
            · rename_i hfresh
              obtain ⟨queue, hqueue, h⟩ := Lib.bind_ok h
              obtain ⟨-, rfl⟩ := push_eq_ok.mp hqueue
              refine .of_mark hn (by simpa using hfresh) ?_
              by_cases hdata : n.data = dest
              · rw [if_pos hdata] at h
                obtain rfl := Except.ok.inj h
                have hempty : {k | Leads s.head dest i k} = ∅ := by
                  ext k
                  simp [Leads, hn, hdata]
                rw [hempty]
                exact Visits.refl dest _
              rw [if_neg hdata] at h
              have hgraph : resetVisited (mark i n s).head = resetVisited s.head := graph_mark hn
              by_cases hconv : (searchConv n.conv dest).isSome = true
              · rw [if_pos hconv] at h
                have hvisits := ih h
                have hset : {k | Leads s.head dest i k} =
                    {k | searchList (mark i n s).head dest = some k} := by
                  ext k
                  simp [Leads, hn, hdata, hconv, searchList_of_graph hgraph]
                rw [hset]
                exact hvisits
              · rw [if_neg hconv] at h
                have hset : {k | Leads s.head dest i k} =
                    {k | ∃ c ∈ n.conv, searchFrom s.head i c.dest = some k} := by
                  ext k
                  simp [Leads, hn, hdata, hconv]
                rw [hset]
                refine foldlM_visits (fun t temp t' ht hrun => ?_) n.conv hgraph h
                rw [← searchFrom_of_graph ht]
                exact ih hrun

-- The marked nodes are counted by unvisited too.
theorem ncard_marked (head : List Node) :
    {i | Marked head i}.ncard + unvisited head = head.length := by
  induction head using List.reverseRecOn with
  | nil =>
      have hempty : {i | Marked [] i} = ∅ := by
        ext i
        simp [Marked]
      simp [hempty, unvisited]
  | append_singleton head n ih =>
      have hold (i : Nat) (hi : Marked head i) : i < head.length := by
        obtain ⟨m, hm, -⟩ := hi
        exact (List.getElem?_eq_some_iff.mp hm).1
      have hmarked (i : Nat) : Marked (head ++ [n]) i ↔
          (n.visited = true ∧ i = head.length) ∨ Marked head i := by
        rcases Nat.lt_trichotomy i head.length with hlt | rfl | hgt
        · simp [Marked, List.getElem?_append_left hlt, Nat.ne_of_lt hlt]
        · simp [Marked]
        · have hnone : (head ++ [n])[i]? = none := by
            rw [List.getElem?_eq_none_iff, List.length_append]
            exact hgt
          simp [Marked, hnone, Nat.ne_of_gt hgt, List.getElem?_eq_none (Nat.le_of_lt hgt)]
      have hfinite : {i | Marked head i}.Finite := (Set.finite_lt_nat head.length).subset hold
      simp only [hmarked, unvisited, List.countP_append, List.length_append] at ih ⊢
      by_cases hvisited : n.visited = true
      · have hset : {i | (n.visited = true ∧ i = head.length) ∨ Marked head i} =
            insert head.length {i | Marked head i} := by
          ext i
          simp [hvisited]
        have hfresh : head.length ∉ {i | Marked head i} := fun h => Nat.lt_irrefl _ (hold _ h)
        rw [hset, Set.ncard_insert_of_notMem hfresh hfinite]
        simp [hvisited]
        omega
      · simp [hvisited]
        omega

theorem not_marked_resetVisited (head : List Node) (i : Nat) : ¬Marked (resetVisited head) i := by
  rintro ⟨n, hn, hvisited⟩
  obtain ⟨m, -, rfl⟩ := List.mem_map.mp (List.mem_of_getElem? hn)
  exact nomatch hvisited

-- A path search marks the types that it comes to.
theorem marked_lookForPath {src : Word} {s s' : Search}
    (h : lookForPath inBounds src dest s = .ok s') :
    {i | Marked s'.head i} = Reached s.head src dest := by
  have hvisits := look_visits h
  have hreset := resetVisited_resetVisited s.head
  have hnone := not_marked_resetVisited s.head
  ext j
  simp only [Reached, Set.mem_ofPred_eq, ← searchList_of_graph hreset src,
    ← leads_of_graph hreset dest]
  constructor
  · intro hj
    rcases hvisits.reached j hj with hj | ⟨i, hi, hpath⟩
    · exact absurd hj (hnone j)
    · exact ⟨i, hi, hpath⟩
  · rintro ⟨i, hi, hpath⟩
    induction hpath with
    | refl => exact hvisits.begun i hi
    | tail _ hstep ih => exact hvisits.closed _ _ ih (hnone _) hstep

-- It stores each of them once.
theorem lookForPath_queue {src : Word} {s s' : Search} (hqueue : s.queue = [])
    (h : lookForPath inBounds src dest s = .ok s') :
    s'.queue.length = (Reached s.head src dest).ncard := by
  have hvisits := look_visits h
  have hcount := hvisits.count
  have hmarked := ncard_marked s'.head
  have hbefore := ncard_marked (resetVisited s.head)
  have hempty : {i | Marked (resetVisited s.head) i} = ∅ :=
    Set.eq_empty_of_forall_notMem (not_marked_resetVisited s.head)
  have hlength : s'.head.length = (resetVisited s.head).length := length_of_graph hvisits.graph
  rw [marked_lookForPath h] at hmarked
  rw [hempty, Set.ncard_empty] at hbefore
  simp only [hqueue, List.length_nil] at hcount
  omega

end

end CSE320.Spooler
