import CSE320.Spooler.Search
import Mathlib.Data.List.TakeWhile

namespace CSE320.Spooler

def types (head : List Node) : List Word := head.map Node.data

def unvisited (head : List Node) : Nat := head.countP fun n => !n.visited

-- Every conversion leads to a declared type.
def Closed (head : List Node) : Prop := ∀ n ∈ head, ∀ c ∈ n.conv, c.dest ∈ types head

@[simp] theorem types_resetVisited (head : List Node) : types (resetVisited head) = types head := by
  simp [types, resetVisited]

@[simp] theorem resetVisited_resetVisited (head : List Node) :
    resetVisited (resetVisited head) = resetVisited head := by
  simp [resetVisited]

theorem types_of_graph {head head' : List Node} (h : resetVisited head' = resetVisited head) :
    types head' = types head := by
  rw [← types_resetVisited head', h, types_resetVisited]

theorem length_of_graph {head head' : List Node} (h : resetVisited head' = resetVisited head) :
    head'.length = head.length := by
  have hlength := congrArg List.length h
  simpa [resetVisited] using hlength

theorem closed_of_graph {head head' : List Node} (h : resetVisited head' = resetVisited head)
    (hclosed : Closed head) :
    Closed head' := by
  intro n' hn' c hc
  have hreset : { n' with visited := false } ∈ resetVisited head := by
    rw [← h]
    exact List.mem_map_of_mem hn'
  obtain ⟨n, hn, hsame⟩ := List.mem_map.mp hreset
  have hconv : n.conv = n'.conv := (Node.mk.inj hsame).2.2
  rw [types_of_graph h]
  exact hclosed n hn c (hconv ▸ hc)

theorem searchList_spec {head : List Node} {node : Word} {i : Nat}
    (h : searchList head node = some i) :
    ∃ n, head[i]? = some n ∧ n.data = node := by
  obtain ⟨hlt, hdata, -⟩ := List.findIdx?_eq_some_iff_getElem.mp h
  exact ⟨head[i], List.getElem?_eq_getElem hlt, by simpa using hdata⟩

theorem data_of_searchList {head : List Node} {node : Word} {i : Nat} {n : Node}
    (h : searchList head node = some i) (hn : head[i]? = some n) : n.data = node := by
  obtain ⟨m, hm, hdata⟩ := searchList_spec h
  obtain rfl : m = n := Option.some.inj (hm.symm.trans hn)
  exact hdata

theorem searchList_isSome {head : List Node} {node : Word} :
    (searchList head node).isSome ↔ node ∈ types head := by
  simp [searchList, types, List.findIdx?_isSome]

theorem searchConv_isSome {conv : List Conv} {dest : Word} :
    (searchConv conv dest).isSome ↔ ∃ c ∈ conv, c.dest = dest := by
  simp [searchConv, List.find?_isSome]

theorem searchList_lt {head : List Node} {node : Word} {i : Nat}
    (h : searchList head node = some i) :
    i < head.length := (List.findIdx?_eq_some_iff_getElem.mp h).1

theorem searchFrom_lt {head : List Node} {start i : Nat} {node : Word}
    (h : searchFrom head start node = some i) :
    i < head.length := by
  obtain ⟨j, hj, rfl⟩ := Option.map_eq_some_iff.mp h
  have hlt := searchList_lt hj
  rw [List.length_drop] at hlt
  omega

-- A node is stored in the queue and marked.
def mark (node : Nat) (n : Node) (s : Search) : Search :=
  { s with queue := n.data :: s.queue, head := s.head.set node { n with visited := true } }

section

variable {s : Search} {node : Nat} {n : Node} (hn : s.head[node]? = some n)

include hn

theorem graph_mark : resetVisited (mark node n s).head = resetVisited s.head := by
  obtain ⟨hlt, rfl⟩ := List.getElem?_eq_some_iff.mp hn
  have hlt' : node < (resetVisited s.head).length := by simpa [resetVisited] using hlt
  have hsame := List.set_getElem_self hlt'
  rw [← hsame]
  simp [mark, resetVisited, List.map_set]

theorem unvisited_mark (hfresh : n.visited = false) :
    unvisited (mark node n s).head + 1 = unvisited s.head := by
  obtain ⟨hlt, rfl⟩ := List.getElem?_eq_some_iff.mp hn
  have hpos : 0 < unvisited s.head :=
    List.countP_pos_iff.mpr ⟨_, List.getElem_mem hlt, by simp [hfresh]⟩
  simp only [mark, unvisited, List.countP_set hlt, hfresh]
  simp only [unvisited] at hpos
  simp
  omega

end

-- What a call of look does to the list and the queue.
structure Looked (s s' : Search) : Prop where
  graph : resetVisited s'.head = resetVisited s.head
  fewer : unvisited s'.head ≤ unvisited s.head
  queue : ∃ pushed, s'.queue = pushed ++ s.queue ∧ ∀ x ∈ pushed, x ∈ types s.head
  result : s'.result = s.result

theorem Looked.refl (s : Search) : Looked s s := ⟨rfl, Nat.le_refl _, ⟨[], rfl, by simp⟩, rfl⟩

theorem Looked.trans {s s' s'' : Search} (h : Looked s s') (h' : Looked s' s'') : Looked s s'' := by
  obtain ⟨pushed, hqueue, hpushed⟩ := h.queue
  obtain ⟨pushed', hqueue', hpushed'⟩ := h'.queue
  refine ⟨h'.graph.trans h.graph, Nat.le_trans h'.fewer h.fewer,
    ⟨pushed' ++ pushed, ?_, fun x hx => ?_⟩, h'.result.trans h.result⟩
  · rw [hqueue', hqueue, List.append_assoc]
  · rcases List.mem_append.mp hx with hx | hx
    · rw [← types_of_graph h.graph]
      exact hpushed' x hx
    · exact hpushed x hx

theorem looked_mark {s : Search} {node : Nat} {n : Node} (hn : s.head[node]? = some n)
    (hfresh : n.visited = false) :
    Looked s (mark node n s) := by
  refine ⟨graph_mark hn, ?_, ⟨[n.data], rfl, ?_⟩, rfl⟩
  · have hless := unvisited_mark hn hfresh
    omega
  · intro x hx
    rw [List.mem_singleton.mp hx]
    exact List.mem_map_of_mem (List.mem_of_getElem? hn)

section

variable {inBounds : Nat → Bool} (hbounds : ∀ i, inBounds i = true) (dest : Word)

include hbounds

theorem push_ok (value : Word) (array : List Word) :
    push inBounds value array = .ok (value :: array) := by
  rw [push, hbounds, if_pos rfl]

-- The call for a node that is not visited yet.
theorem look_of_fresh {fuel node : Nat} {s : Search} {n : Node} (hn : s.head[node]? = some n)
    (hfresh : n.visited = false) :
    look inBounds dest (fuel + 1) (some node) s =
      if n.data = dest then .ok (mark node n s)
      else if (searchConv n.conv dest).isSome then
        look inBounds dest fuel (searchList (mark node n s).head dest) (mark node n s)
      else
        n.conv.foldlM (fun s temp => look inBounds dest fuel (searchFrom s.head node temp.dest) s)
        (mark node n s) := by
  rw [look]
  simp only [hn, hfresh, push_ok hbounds, Lib.ok_bind]
  rfl

-- Each call that goes on marks a node, so the number of nodes bounds the depth.
theorem look_spec {fuel : Nat} {node : Option Nat} {s : Search}
    (hnode : ∀ i, node = some i → i < s.head.length) (hfuel : unvisited s.head < fuel) :
    ∃ s', look inBounds dest fuel node s = .ok s' ∧ Looked s s' ∧
      ∀ i n, node = some i → s.head[i]? = some n → n.visited = false → Looked (mark i n s) s' := by
  induction fuel generalizing node s with
  | zero => omega
  | succ fuel ih =>
      cases node with
      | none => exact ⟨s, rfl, .refl s, by simp⟩
      | some i =>
          obtain ⟨n, hn⟩ : ∃ n, s.head[i]? = some n := ⟨_, List.getElem?_eq_getElem (hnode i rfl)⟩
          by_cases hvisited : n.visited = true
          · refine ⟨s, by simp [look, hn, hvisited], .refl s, fun j n' hj hn' hfresh => ?_⟩
            obtain rfl := Option.some.inj hj
            obtain rfl : n = n' := Option.some.inj (hn.symm.trans hn')
            exact absurd hvisited (by simp [hfresh])
          · have hfresh : n.visited = false := by simpa using hvisited
            have hless := unvisited_mark hn hfresh
            have hinner : ∃ s', look inBounds dest (fuel + 1) (some i) s = .ok s' ∧
                Looked (mark i n s) s' := by
              rw [look_of_fresh hbounds dest hn hfresh]
              split
              · exact ⟨_, rfl, .refl _⟩
              · split
                · obtain ⟨s', hs', hlooked, -⟩ :=
                    ih (fun j hj => searchList_lt hj)
                    (by omega : unvisited (mark i n s).head < fuel)
                  exact ⟨s', hs', hlooked⟩
                · refine Lib.foldlM_ok (Looked (mark i n s)) (fun t temp ht => ?_) n.conv (.refl _)
                  have hbound := ht.fewer
                  obtain ⟨t', ht', hlooked, -⟩ :=
                    ih (fun j hj => searchFrom_lt hj) (by omega : unvisited t.head < fuel)
                  exact ⟨t', ht', ht.trans hlooked⟩
            obtain ⟨s', hs', hlooked⟩ := hinner
            refine ⟨s', hs', (looked_mark hn hfresh).trans hlooked, fun j n' hj hn' _ => ?_⟩
            obtain rfl := Option.some.inj hj
            obtain rfl : n = n' := Option.some.inj (hn.symm.trans hn')
            exact hlooked

end

-- A type that is declared later is found by no search for another one.
theorem searchList_append {head : List Node} {new : Node} {node : Word} (h : node ≠ new.data) :
    searchList (head ++ [new]) node = searchList head node := by
  have hnew : decide (new.data = node) = false := by simpa using Ne.symm h
  simp [searchList, List.findIdx?_append, List.findIdx?_cons, hnew]

theorem searchFrom_append {head : List Node} {new : Node} {start : Nat} {node : Word}
    (hstart : start < head.length) (h : node ≠ new.data) :
    searchFrom (head ++ [new]) start node = searchFrom head start node := by
  rw [searchFrom, List.drop_append_of_le_length (Nat.le_of_lt hstart),
    searchList_append h, searchFrom]

def Search.declare (new : Node) (s : Search) : Search := { s with head := s.head ++ [new] }

theorem mark_declare {node : Nat} {n new : Node} {s : Search} (h : node < s.head.length) :
    mark node n (s.declare new) = (mark node n s).declare new := by
  simp [mark, Search.declare, List.set_append_left _ _ h]

section

variable {inBounds : Nat → Bool} (hbounds : ∀ i, inBounds i = true) {dest : Word} {new : Node}

include hbounds

-- A new type does not change what look does.
theorem look_declare {fuel : Nat} {node : Option Nat} {s : Search}
    (hnode : ∀ i, node = some i → i < s.head.length) (hfuel : unvisited s.head < fuel)
    (hclosed : Closed s.head) (hdest : dest ∈ types s.head) (hnew : new.data ∉ types s.head) :
    ∃ s', look inBounds dest fuel node s = .ok s' ∧
      look inBounds dest (fuel + 1) node (s.declare new) = .ok (s'.declare new) := by
  induction fuel generalizing node s with
  | zero => omega
  | succ fuel ih =>
      cases node with
      | none => exact ⟨s, rfl, rfl⟩
      | some i =>
          have hlt := hnode i rfl
          obtain ⟨n, hn⟩ : ∃ n, s.head[i]? = some n := ⟨_, List.getElem?_eq_getElem hlt⟩
          have hn' : (s.declare new).head[i]? = some n := by
            rw [← hn]
            exact List.getElem?_append_left hlt
          have hne (x : Word) (hx : x ∈ types s.head) : x ≠ new.data := fun heq => hnew (heq ▸ hx)
          by_cases hvisited : n.visited = true
          · exact ⟨s, by simp [look, hn, hvisited], by simp [look, hn', hvisited]⟩
          have hfresh : n.visited = false := by simpa using hvisited
          have hless := unvisited_mark hn hfresh
          have hgraph := graph_mark hn
          have hlength := length_of_graph hgraph
          rw [look_of_fresh hbounds dest hn hfresh, look_of_fresh hbounds dest hn' hfresh,
            mark_declare hlt]
          by_cases hdata : n.data = dest
          · rw [if_pos hdata, if_pos hdata]
            exact ⟨_, rfl, rfl⟩
          rw [if_neg hdata, if_neg hdata]
          by_cases hconv : (searchConv n.conv dest).isSome = true
          · have hsearch : searchList ((mark i n s).declare new).head dest =
                searchList (mark i n s).head dest :=
              searchList_append (hne dest hdest)
            rw [if_pos hconv, if_pos hconv, hsearch]
            refine ih (fun j hj => searchList_lt hj) (by omega)
              (closed_of_graph hgraph hclosed) ?_ ?_
            · rwa [types_of_graph hgraph]
            · rwa [types_of_graph hgraph]
          rw [if_neg hconv, if_neg hconv]
          -- the two loops stay in step
          have hstep : ∀ t u, ∀ temp ∈ n.conv, Looked (mark i n s) t ∧ u = t.declare new → ∃ t' u',
              look inBounds dest fuel (searchFrom t.head i temp.dest) t = .ok t' ∧
                look inBounds dest (fuel + 1) (searchFrom u.head i temp.dest) u = .ok u' ∧
                Looked (mark i n s) t' ∧ u' = t'.declare new := by
            rintro t _ temp htemp ⟨ht, rfl⟩
            have hgraph' := ht.graph.trans hgraph
            have hlength' := length_of_graph hgraph'
            have hfewer := ht.fewer
            have hdeclared := hclosed n (List.mem_of_getElem? hn) temp htemp
            have hsearch : searchFrom (t.declare new).head i temp.dest =
                searchFrom t.head i temp.dest :=
              searchFrom_append (by omega) (hne temp.dest hdeclared)
            have hvalid (j : Nat) (hj : searchFrom t.head i temp.dest = some j) :
                j < t.head.length := searchFrom_lt hj
            have hbound : unvisited t.head < fuel := by omega
            obtain ⟨t', ht', hlooked, -⟩ := look_spec hbounds dest hvalid hbound
            obtain ⟨t'', ht'', hnext⟩ := ih hvalid hbound (closed_of_graph hgraph' hclosed)
              (by rwa [types_of_graph hgraph']) (by rwa [types_of_graph hgraph'])
            obtain rfl : t' = t'' := Except.ok.inj (ht'.symm.trans ht'')
            rw [hsearch]
            exact ⟨t', _, ht', hnext, ht.trans hlooked, rfl⟩
          obtain ⟨final, _, hfinal, hfinal', -, rfl⟩ := Lib.foldlM_rel _ hstep ⟨.refl _, rfl⟩
          exact ⟨final, hfinal, hfinal'⟩

end

-- The search of bfs when the source is not the destination.
def lookForPath (inBounds : Nat → Bool) (src dest : Word) (s : Search) : Except Fault Search :=
  look inBounds dest ((resetVisited s.head).length + 1) (searchList (resetVisited s.head) src)
    { s with head := resetVisited s.head, result := [] }

-- The rest of bfs.
def readPath (inBounds : Nat → Bool) (dest : Word) (s : Search) : Except Fault Search :=
  match s.queue.dropWhile (· ≠ dest) with
  | [] => .ok { s with queue := [] }
  | entry :: queue => do
    let result ← push inBounds dest []
    if queue = [] then .ok { s with queue := [entry], result }
    else do
      let result ← backtrack inBounds s.head (entry :: queue) result
      .ok { s with queue := [], result := result.reverse }

theorem bfs_of_ne (inBounds : Nat → Bool) {src dest : Word} (h : src ≠ dest) (s : Search) :
    bfs inBounds src dest s = lookForPath inBounds src dest s >>= readPath inBounds dest := by
  rw [bfs, if_neg h]
  rfl

-- The search ends without a result.
def NoPath (inBounds : Nat → Bool) (s : Search) (src dest : Word) : Prop :=
  ∃ s', bfs inBounds src dest s = .ok s' ∧ s'.result = []

-- The loop down to the last place of the destination.
theorem dropWhile_of_notMem {before behind : List Word} {dest : Word} (h : dest ∉ before) :
    (before ++ dest :: behind).dropWhile (· ≠ dest) = dest :: behind := by
  have hskip : ∀ x ∈ before, decide (x ≠ dest) = true :=
    fun x hx => decide_eq_true fun heq => h (heq ▸ hx)
  rw [List.dropWhile_append_of_pos hskip]
  simp

section

variable {inBounds : Nat → Bool} (hbounds : ∀ i, inBounds i = true)

include hbounds

theorem backtrack_spec {head : List Node} {queue result : List Word}
    (hqueue : ∀ x ∈ queue, x ∈ types head) (hresult : result ≠ []) :
    ∃ r, backtrack inBounds head queue result = .ok r ∧ r ≠ [] := by
  induction queue generalizing result with
  | nil => exact ⟨result, rfl, hresult⟩
  | cons entry queue ih =>
      have hrest (x : Word) (hx : x ∈ queue) : x ∈ types head :=
        hqueue x (List.mem_cons_of_mem entry hx)
      obtain ⟨i, hi⟩ := Option.isSome_iff_exists.mp
        (searchList_isSome.mpr (hqueue entry List.mem_cons_self))
      obtain ⟨n, hn, -⟩ := searchList_spec hi
      obtain ⟨last, rest, rfl⟩ := List.exists_cons_of_ne_nil hresult
      simp only [backtrack, hi, Option.bind_some, hn, push_ok hbounds, Lib.ok_bind]
      split
      · exact ih hrest (List.cons_ne_nil _ _)
      · exact ih hrest (List.cons_ne_nil _ _)

variable {src dest : Word}

-- The source is the first entry of the queue, so another destination is behind it.
theorem lookForPath_spec (s : Search) (hqueue : s.queue = []) (hne : src ≠ dest) :
    ∃ s', lookForPath inBounds src dest s = .ok s' ∧ resetVisited s'.head = resetVisited s.head ∧
      s'.result = [] ∧ (∀ x ∈ s'.queue, x ∈ types s'.head) ∧
      (dest ∈ s'.queue → ∃ first rest, s'.queue.dropWhile (· ≠ dest) = dest :: first :: rest) := by
  obtain ⟨s', hlook, hlooked, hfresh⟩ := look_spec hbounds dest
    (s := { s with head := resetVisited s.head, result := [] }) (fun i hi => searchList_lt hi)
    (Nat.lt_succ_of_le List.countP_le_length)
  obtain ⟨pushed, hpushed, htypes⟩ := hlooked.queue
  refine ⟨s',
    hlook, by rw [hlooked.graph, resetVisited_resetVisited], hlooked.result, ?_, fun hdest => ?_⟩
  · rw [types_of_graph hlooked.graph, hpushed, hqueue, List.append_nil]
    exact htypes
  · cases hsearch : searchList (resetVisited s.head) src with
    | none =>
        rw [hsearch] at hlook
        obtain rfl := Except.ok.inj hlook
        simp [hqueue] at hdest
    | some i =>
        obtain ⟨n, hn, rfl⟩ := searchList_spec hsearch
        have hunvisited : n.visited = false := by
          obtain ⟨m, -, rfl⟩ := List.mem_map.mp (List.mem_of_getElem? hn)
          rfl
        obtain ⟨pushed, hpushed, -⟩ := (hfresh i n hsearch hn hunvisited).queue
        have hlast : s'.queue = pushed ++ [n.data] := by rw [hpushed, mark, hqueue]
        have hmem : dest ∈ pushed := by
          rw [hlast] at hdest
          rcases List.mem_append.mp hdest with hmem | hmem
          · exact hmem
          · exact absurd (List.mem_singleton.mp hmem).symm hne
        obtain ⟨before, behind, rfl, hbefore⟩ := List.eq_append_cons_of_mem hmem
        have hdrop : s'.queue.dropWhile (· ≠ dest) = dest :: (behind ++ [n.data]) := by
          rw [hlast, List.append_assoc, List.cons_append]
          exact dropWhile_of_notMem hbefore
        obtain ⟨first, rest, hrest⟩ :=
          List.exists_cons_of_ne_nil (List.append_ne_nil_of_right_ne_nil behind
          (List.cons_ne_nil n.data []))
        exact ⟨first, rest, by rw [hdrop, hrest]⟩

-- The search returns, and there is a result exactly when the destination is the
-- source or in the queue.
theorem bfs_spec (src dest : Word) {s : Search} (hqueue : s.queue = []) :
    ∃ s', bfs inBounds src dest s = .ok s' ∧ s'.queue = [] ∧
      resetVisited s'.head = resetVisited s.head ∧
      (s'.result = [] ↔ src ≠ dest ∧ ∀ t, lookForPath inBounds src dest s = .ok t →
        dest ∉ t.queue) := by
  by_cases hne : src = dest
  · refine ⟨{ s with result := src :: s.result }, ?_, hqueue, rfl, ?_⟩
    · rw [bfs, if_pos hne, push_ok hbounds, Lib.ok_bind]
    · exact iff_of_false (List.cons_ne_nil _ _) fun h => h.1 hne
  · obtain ⟨s', hlook, hgraph, hempty, htypes, hfound⟩ := lookForPath_spec hbounds s hqueue hne
    have hrun := bfs_of_ne inBounds hne s
    rw [hlook, Lib.ok_bind, readPath] at hrun
    rw [hlook, hrun]
    by_cases hdest : dest ∈ s'.queue
    · obtain ⟨first, rest, hdrop⟩ := hfound hdest
      have hentries : ∀ x ∈ dest :: first :: rest, x ∈ types s'.head := fun x hx =>
        htypes x (List.dropWhile_sublist (· ≠ dest) |>.subset (hdrop ▸ hx))
      obtain ⟨result, hresult, hsome⟩ := backtrack_spec hbounds hentries (List.cons_ne_nil dest [])
      rw [hdrop]
      simp only [push_ok hbounds, Lib.ok_bind, if_neg (List.cons_ne_nil first rest), hresult]
      exact ⟨_, rfl, rfl, hgraph, iff_of_false (by simpa using hsome) fun h => h.2 s' rfl hdest⟩
    · have hdrop : s'.queue.dropWhile (· ≠ dest) = [] :=
        List.dropWhile_eq_nil_iff.mpr fun x hx => decide_eq_true fun heq => hdest (heq ▸ hx)
      rw [hdrop]
      refine ⟨_, rfl, rfl, hgraph, iff_of_true hempty ⟨hne, fun t ht => ?_⟩⟩
      obtain rfl := Except.ok.inj ht
      exact hdest

theorem noPath_iff {s : Search} (hqueue : s.queue = []) :
    NoPath inBounds s src dest ↔ src ≠ dest ∧ ∀ t, lookForPath inBounds src dest s = .ok t →
      dest ∉ t.queue := by
  obtain ⟨s', hrun, -, -, hresult⟩ := bfs_spec hbounds src dest hqueue
  rw [← hresult]
  constructor
  · rintro ⟨t, ht, hempty⟩
    obtain rfl : s' = t := Except.ok.inj (hrun.symm.trans ht)
    exact hempty
  · exact fun hempty => ⟨s', hrun, hempty⟩

-- The marks and the last result do not matter.
theorem noPath_of_graph {s s' : Search} (hqueue : s.queue = []) (hqueue' : s'.queue = [])
    (hgraph : resetVisited s'.head = resetVisited s.head) (h : NoPath inBounds s src dest) :
    NoPath inBounds s' src dest := by
  have hlook : lookForPath inBounds src dest s' = lookForPath inBounds src dest s := by
    rw [lookForPath, lookForPath, hgraph, hqueue, hqueue']
  rw [noPath_iff hbounds hqueue', hlook]
  exact (noPath_iff hbounds hqueue).mp h

theorem lookForPath_declare {s : Search} {new : Node} (hclosed : Closed s.head)
    (hsrc : src ∈ types s.head) (hdest : dest ∈ types s.head) (hnew : new.data ∉ types s.head) :
    ∃ t, lookForPath inBounds src dest s = .ok t ∧
      lookForPath inBounds src dest (s.declare new) =
        .ok (t.declare { new with visited := false }) := by
  have hreset : resetVisited (s.declare new).head =
      resetVisited s.head ++ [{ new with visited := false }] := by
    simp [Search.declare, resetVisited]
  have hsearch : searchList (resetVisited (s.declare new).head) src =
      searchList (resetVisited s.head) src := by
    rw [hreset]
    exact searchList_append fun heq => hnew (heq ▸ hsrc)
  have htypes := types_resetVisited s.head
  rw [lookForPath, lookForPath, hsearch, hreset, List.length_append]
  refine look_declare hbounds (fun i hi => searchList_lt hi)
    (Nat.lt_succ_of_le List.countP_le_length)
    (closed_of_graph (resetVisited_resetVisited s.head) hclosed) ?_ ?_
  · rwa [htypes]
  · rwa [htypes]

theorem noPath_declare {s : Search} {new : Node} (hqueue : s.queue = []) (hclosed : Closed s.head)
    (hsrc : src ∈ types s.head) (hdest : dest ∈ types s.head) (hnew : new.data ∉ types s.head)
    (h : NoPath inBounds s src dest) : NoPath inBounds (s.declare new) src dest := by
  obtain ⟨hne, hnot⟩ := (noPath_iff hbounds hqueue).mp h
  have hqueue' : (s.declare new).queue = [] := hqueue
  obtain ⟨t, hlook, hlook'⟩ := lookForPath_declare hbounds hclosed hsrc hdest hnew
  refine (noPath_iff hbounds hqueue').mpr ⟨hne, fun t' ht' => ?_⟩
  obtain rfl := Except.ok.inj (hlook'.symm.trans ht')
  exact hnot t hlook

end

end CSE320.Spooler
