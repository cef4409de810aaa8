import CSE320.Lib.Tour
import CSE320.Spooler.Bounds

namespace CSE320.Spooler

open Lib (ascii)
open Relation (ReflTransGen TransGen)

-- The calls that declare types and conversions.
inductive Declaration where
  | addList (newData : Word)
  | addConv (data1 data2 convProg : Word) (args : List Word)
deriving DecidableEq, Repr

def Declaration.run (s : State) : Declaration → State
  | .addList newData => Spooler.addList newData s
  | .addConv data1 data2 convProg args => Spooler.addConv data1 data2 convProg args s

-- The types and conversions that a sequence of calls leaves.
def built (calls : List Declaration) : List Node := (calls.foldl Declaration.run .start).list.head

-- Each name is declared once, and a conversion leads to another declared type.
structure Declared (head : List Node) : Prop where
  distinct : (types head).Nodup
  closed : Closed head
  noSelf : ∀ n ∈ head, ∀ c ∈ n.conv, c.dest ≠ n.data

def Converts (head : List Node) (x y : Word) : Prop :=
  ∃ n ∈ head, n.data = x ∧ ∃ c ∈ n.conv, c.dest = y

instance (head : List Node) : DecidableRel (Converts head) := fun x y =>
  inferInstanceAs (Decidable (∃ n ∈ head, n.data = x ∧ ∃ c ∈ n.conv, c.dest = y))

-- A conversion to a type that is declared later.
def Forward (head : List Node) (x y : Word) : Prop :=
  Converts head x y ∧ (types head).idxOf x < (types head).idxOf y

theorem Declared.addList {s : State} (h : Declared s.list.head) (newData : Word) :
    Declared (addList newData s).list.head := by
  unfold Spooler.addList
  split
  · exact h
  · rename_i hnew
    have htypes : types (s.list.head ++ [⟨newData, false, []⟩]) =
        types s.list.head ++ [newData] := by simp [types]
    have hready : Ready ⟨s.list.head, [], []⟩ := ⟨rfl, h.noSelf⟩
    refine ⟨?_, fun n hn c hc => ?_, (hready.type newData).noSelf⟩
    · rw [htypes, List.nodup_append_comm]
      exact List.nodup_cons.mpr ⟨fun hmem => hnew (searchList_isSome.mpr hmem), h.distinct⟩
    · rw [htypes]
      rcases List.mem_append.mp hn with hn | hn
      · exact List.mem_append_left _ (h.closed n hn c hc)
      · rw [List.mem_singleton.mp hn] at hc
        cases hc

theorem Declared.addConv {s : State} (h : Declared s.list.head) (data1 data2 convProg : Word)
    (args : List Word) :
    Declared (addConv data1 data2 convProg args s).list.head := by
  unfold Spooler.addConv
  split
  · exact h
  · rename_i hne
    split
    · exact h
    · exact h
    · rename_i d1 d2 hd1 hd2
      have hdata : data2 ∈ types s.list.head := searchList_isSome.mp (Option.isSome_of_eq_some hd2)
      obtain ⟨htypes, hclosed⟩ := closed_append_conv d1 convProg args h.closed hdata
      have hready : Ready ⟨s.list.head, [], []⟩ := ⟨rfl, h.noSelf⟩
      refine ⟨?_, hclosed, (hready.conversion convProg args hne hd1).noSelf⟩
      rw [htypes]
      exact h.distinct

theorem declared_built (calls : List Declaration) : Declared (built calls) := by
  have hrun (s : State) (hs : Declared s.list.head) :
      Declared (calls.foldl Declaration.run s).list.head := by
    induction calls generalizing s with
    | nil => exact hs
    | cons call calls ih =>
        apply ih
        cases call with
        | addList newData => exact hs.addList newData
        | addConv data1 data2 convProg args => exact hs.addConv data1 data2 convProg args
  apply hrun
  exact ⟨List.nodup_nil, fun n hn => (nomatch hn), fun n hn => (nomatch hn)⟩

theorem converts_addedConv {head : List Node} {d1 : Nat} {m : Node} (hm : head[d1]? = some m)
    {data2 convProg x y : Word} {args : List Word} :
    Converts (head.modify d1 (addedConv data2 convProg args)) x y ↔
      (x = m.data ∧ y = data2) ∨ Converts head x y := by
  constructor
  · rintro ⟨n', hn', rfl, hconv⟩
    obtain ⟨i, hi⟩ := List.mem_iff_getElem?.mp hn'
    rw [List.getElem?_modify] at hi
    obtain ⟨n, hn, rfl⟩ := Option.map_eq_some_iff.mp hi
    by_cases hthis : d1 = i
    · subst hthis
      obtain rfl : m = n := Option.some.inj (hm.symm.trans hn)
      rw [if_pos rfl] at hconv ⊢
      rw [addedConv_data]
      rcases addedConv_dest.mp hconv with rfl | hconv
      · exact Or.inl ⟨rfl, rfl⟩
      · exact Or.inr ⟨m, List.mem_of_getElem? hn, rfl, hconv⟩
    · rw [if_neg hthis] at hconv ⊢
      exact Or.inr ⟨n, List.mem_of_getElem? hn, rfl, hconv⟩
  · have hnode (i : Nat) (n : Node) (hn : head[i]? = some n) :
        (if d1 = i then addedConv data2 convProg args n
          else n) ∈ head.modify d1 (addedConv data2 convProg args) := by
      apply List.mem_of_getElem? (i := i)
      rw [List.getElem?_modify, hn]
      rfl
    rintro (⟨rfl, rfl⟩ | ⟨n, hn, rfl, hconv⟩)
    · have hmem := hnode d1 m hm
      rw [if_pos rfl] at hmem
      exact ⟨_, hmem, addedConv_data _ _ _ m, addedConv_dest.mpr (Or.inl rfl)⟩
    · obtain ⟨i, hi⟩ := List.mem_iff_getElem?.mp hn
      have hmem := hnode i n hi
      split at hmem
      · exact ⟨_, hmem, addedConv_data _ _ _ n, addedConv_dest.mpr (Or.inr hconv)⟩
      · exact ⟨n, hmem, rfl, hconv⟩

theorem types_addList (newData : Word) (s : State) (x : Word) :
    x ∈ types (addList newData s).list.head ↔ x ∈ types s.list.head ∨ newData = x := by
  unfold addList
  split
  · rename_i hold
    have hmem := searchList_isSome.mp hold
    constructor
    · exact Or.inl
    · rintro (h | rfl)
      · exact h
      · exact hmem
  · simp [types, eq_comm]

theorem types_addConv {s : State} (hd : Declared s.list.head) (data1 data2 convProg : Word)
    (args : List Word) :
    types (addConv data1 data2 convProg args s).list.head = types s.list.head := by
  unfold addConv
  split
  · rfl
  · split
    · rfl
    · rfl
    · rename_i d1 d2 _ hd2
      have hdata : data2 ∈ types s.list.head := searchList_isSome.mp (Option.isSome_of_eq_some hd2)
      exact (closed_append_conv d1 convProg args hd.closed hdata).1

theorem converts_addList (newData : Word) (s : State) (x y : Word) :
    Converts (addList newData s).list.head x y ↔ Converts s.list.head x y := by
  unfold addList
  split
  · rfl
  · constructor
    · rintro ⟨n, hn, hdata, c, hc, hdest⟩
      rcases List.mem_append.mp hn with hn | hn
      · exact ⟨n, hn, hdata, c, hc, hdest⟩
      · rw [List.mem_singleton.mp hn] at hc
        cases hc
    · rintro ⟨n, hn, hconv⟩
      exact ⟨n, List.mem_append_left _ hn, hconv⟩

theorem converts_addConv (data1 data2 convProg : Word) (args : List Word) (s : State) (x y : Word) :
    Converts (addConv data1 data2 convProg args s).list.head x y ↔ Converts s.list.head x y ∨
      (data1 = x ∧ data2 = y) ∧ x ≠ y ∧ x ∈ types s.list.head ∧ y ∈ types s.list.head := by
  unfold addConv
  split
  · rename_i hsame
    refine (or_iff_left ?_).symm
    rintro ⟨⟨rfl, rfl⟩, hne, -⟩
    exact hne hsame
  · rename_i hne
    split
    · rename_i hnone
      refine (or_iff_left ?_).symm
      rintro ⟨⟨rfl, rfl⟩, -, hx, -⟩
      exact absurd (searchList_isSome.mpr hx) (by simp [hnone])
    · rename_i hnone
      refine (or_iff_left ?_).symm
      rintro ⟨⟨rfl, rfl⟩, -, -, hy⟩
      exact absurd (searchList_isSome.mpr hy) (by simp [hnone])
    · rename_i d1 d2 hd1 hd2
      obtain ⟨m, hm, rfl⟩ := searchList_spec hd1
      have hx : m.data ∈ types s.list.head := searchList_isSome.mp (Option.isSome_of_eq_some hd1)
      have hy : data2 ∈ types s.list.head := searchList_isSome.mp (Option.isSome_of_eq_some hd2)
      have hadded : Converts (s.list.head.modify d1 (addedConv data2 convProg args)) x y ↔
          (x = m.data ∧ y = data2) ∨ Converts s.list.head x y := converts_addedConv hm
      refine hadded.trans ?_
      rw [or_comm]
      apply or_congr_right
      constructor
      · rintro ⟨rfl, rfl⟩
        exact ⟨⟨rfl, rfl⟩, hne, hx, hy⟩
      · rintro ⟨⟨rfl, rfl⟩, -⟩
        exact ⟨rfl, rfl⟩

-- What one call adds.
theorem types_run {s : State} (hd : Declared s.list.head) (call : Declaration) (x : Word) :
    x ∈ types (call.run s).list.head ↔ x ∈ types s.list.head ∨ call = .addList x := by
  cases call with
  | addList newData => simp [Declaration.run, types_addList]
  | addConv data1 data2 convProg args => simp [Declaration.run, types_addConv hd]

theorem converts_run {s : State} (call : Declaration) (x y : Word) :
    Converts (call.run s).list.head x y ↔ Converts s.list.head x y ∨
      (∃ convProg args, call = .addConv x y convProg args) ∧ x ≠ y ∧ x ∈ types s.list.head ∧
        y ∈ types s.list.head := by
  cases call with
  | addList newData => simp [Declaration.run, converts_addList]
  | addConv data1 data2 convProg args => simp [Declaration.run, converts_addConv]

theorem built_concat (calls : List Declaration) (call : Declaration) :
    built (calls ++ [call]) = (call.run (calls.foldl Declaration.run .start)).list.head := by
  rw [built, List.foldl_concat]

-- The types are those of the calls of add_list.
theorem types_built (calls : List Declaration) (x : Word) :
    x ∈ types (built calls) ↔ .addList x ∈ calls := by
  induction calls using List.reverseRecOn with
  | nil => simp [built, types, State.start]
  | append_singleton calls call ih =>
      rw [built_concat, types_run (declared_built calls), List.mem_append, List.mem_singleton,
        ← ih, eq_comm]
      rfl

-- A conversion is declared by a call of add_conv behind the ones that declare its types.
theorem converts_built (calls : List Declaration) (x y : Word) :
    Converts (built calls) x y ↔ x ≠ y ∧ ∃ before convProg args,
      before ++ [.addConv x y convProg args] <+: calls ∧ .addList x ∈ before ∧
        .addList y ∈ before := by
  induction calls using List.reverseRecOn with
  | nil => simp [built, Converts, State.start]
  | append_singleton calls call ih =>
      have hstep := converts_run (s := calls.foldl Declaration.run .start) call x y
      rw [← built_concat] at hstep
      rw [hstep]
      change Converts (built calls) x y ∨ _ ↔ _
      rw [ih]
      constructor
      · rintro (⟨hne, before, convProg, args, hprefix, hmem⟩ | ⟨⟨convProg, args, rfl⟩, hne, hx, hy⟩)
        · exact ⟨hne, before, convProg, args, hprefix.trans (List.prefix_append calls _), hmem⟩
        · exact ⟨hne, calls, convProg, args, List.prefix_refl _, (types_built calls x).mp hx,
            (types_built calls y).mp hy⟩
      · rintro ⟨hne, before, convProg, args, hprefix, hx, hy⟩
        rcases List.prefix_concat_iff.mp hprefix with heq | hprefix
        · obtain ⟨rfl, hcall⟩ := List.append_inj' heq rfl
          obtain rfl := List.singleton_inj.mp hcall
          exact Or.inr ⟨⟨convProg, args, rfl⟩, hne, (types_built before x).mpr hx,
            (types_built before y).mpr hy⟩
        · exact Or.inl ⟨hne, before, convProg, args, hprefix, hx, hy⟩

theorem declared_of_graph {head head' : List Node} (h : resetVisited head' = resetVisited head)
    (hd : Declared head) :
    Declared head' where
  distinct := by
    rw [types_of_graph h]
    exact hd.distinct
  closed := closed_of_graph h hd.closed
  noSelf := noSelf_of_graph h hd.noSelf

theorem converts_of_graph {head head' : List Node} (h : resetVisited head' = resetVisited head) :
    Converts head' = Converts head := by
  have himp {head head' : List Node} (h : resetVisited head' = resetVisited head) {x y : Word}
      (hconverts : Converts head x y) : Converts head' x y := by
    obtain ⟨n, hn, hdata, c, hc, hdest⟩ := hconverts
    obtain ⟨i, hi⟩ := List.mem_iff_getElem?.mp hn
    obtain ⟨n', hn', hdata', hconv⟩ := get_of_graph h hi
    exact ⟨n', List.mem_of_getElem? hn', hdata'.trans hdata, c, hconv ▸ hc, hdest⟩
  funext x y
  exact propext ⟨himp h.symm, himp h⟩

theorem forward_of_graph {head head' : List Node} (h : resetVisited head' = resetVisited head) :
    Forward head' = Forward head := by
  funext x y
  rw [Forward, Forward, converts_of_graph h, types_of_graph h]

theorem Converts.mem {head : List Node} {x y : Word} (h : Converts head x y) : x ∈ types head := by
  obtain ⟨n, hn, rfl, -⟩ := h
  exact List.mem_map_of_mem hn

theorem Converts.mem_dest {head : List Node} (hclosed : Closed head) {x y : Word}
    (h : Converts head x y) :
    y ∈ types head := by
  obtain ⟨n, hn, -, c, hc, rfl⟩ := h
  exact hclosed n hn c hc

theorem Converts.ne {head : List Node} (hself : ∀ n ∈ head, ∀ c ∈ n.conv, c.dest ≠ n.data)
    {x y : Word} (h : Converts head x y) : y ≠ x := by
  obtain ⟨n, hn, rfl, c, hc, rfl⟩ := h
  exact hself n hn c hc

theorem data_of_searchFrom {head : List Node} {start : Nat} {node : Word} {i : Nat} {n : Node}
    (h : searchFrom head start node = some i) (hn : head[i]? = some n) :
    n.data = node ∧ start ≤ i := by
  obtain ⟨j, hj, rfl⟩ := Option.map_eq_some_iff.mp h
  have hdrop : (head.drop start)[j]? = some n := by rw [List.getElem?_drop, Nat.add_comm, hn]
  exact ⟨data_of_searchList hj hdrop, Nat.le_add_left start j⟩

section

variable {head : List Node} (hdistinct : (types head).Nodup)

include hdistinct

theorem eq_of_data {i j : Nat} {n m : Node} (hn : head[i]? = some n) (hm : head[j]? = some m)
    (hdata : n.data = m.data) :
    i = j := by
  have hi : (types head)[i]? = some n.data := by rw [types, List.getElem?_map, hn, Option.map_some]
  have hj : (types head)[j]? = some n.data := by
    rw [types, List.getElem?_map, hm, Option.map_some, hdata]
  obtain ⟨hlt, -⟩ := List.getElem?_eq_some_iff.mp hi
  exact (List.getElem?_inj hlt hdistinct).mp (hi.trans hj.symm)

theorem searchList_iff {i : Nat} {n : Node} (hn : head[i]? = some n) {node : Word} :
    searchList head node = some i ↔ n.data = node := by
  constructor
  · exact fun h => data_of_searchList h hn
  · rintro rfl
    have hmem : n.data ∈ types head := List.mem_map_of_mem (List.mem_of_getElem? hn)
    obtain ⟨j, hj⟩ := Option.isSome_iff_exists.mp (searchList_isSome.mpr hmem)
    obtain ⟨m, hm, hdata⟩ := searchList_spec hj
    rw [hj, eq_of_data hdistinct hm hn hdata]

theorem idxOf_data {i : Nat} {n : Node} (hn : head[i]? = some n) :
    (types head).idxOf n.data = i := by
  obtain ⟨hlt, rfl⟩ := List.getElem?_eq_some_iff.mp hn
  have hlt' : i < (types head).length := by simpa [types] using hlt
  have hget : (types head)[i] = head[i].data := by simp [types]
  rw [← hget]
  exact hdistinct.idxOf_getElem i hlt'

-- The search from a node on finds the types that are not declared before it.
theorem searchFrom_iff {start i : Nat} {n : Node} (hn : head[i]? = some n) {node : Word} :
    searchFrom head start node = some i ↔ n.data = node ∧ start ≤ i := by
  have hdrop : (types (head.drop start)).Nodup := by
    rw [types, List.map_drop]
    exact hdistinct.sublist (List.drop_sublist start _)
  constructor
  · exact fun h => data_of_searchFrom h hn
  · rintro ⟨hdata, hle⟩
    obtain ⟨k, rfl⟩ := Nat.exists_eq_add_of_le hle
    have hk : (head.drop start)[k]? = some n := by rw [List.getElem?_drop, hn]
    rw [searchFrom, (searchList_iff hdrop hk).mpr hdata, Option.map_some, Nat.add_comm]

theorem converts_iff {i : Nat} {n : Node} (hn : head[i]? = some n) {y : Word} :
    Converts head n.data y ↔ ∃ c ∈ n.conv, c.dest = y := by
  constructor
  · rintro ⟨m, hm, hdata, hconv⟩
    obtain ⟨j, hj⟩ := List.mem_iff_getElem?.mp hm
    obtain rfl := eq_of_data hdistinct hj hn hdata
    obtain rfl : m = n := Option.some.inj (hj.symm.trans hn)
    exact hconv
  · exact fun hconv => ⟨n, List.mem_of_getElem? hn, rfl, hconv⟩

end

-- The queue holds the names of the marked types, in the order of a tour.
structure Touring (src : Word) (s : Search) : Prop where
  tour : Lib.Tour (Converts s.head) src s.queue
  declared : ∀ x ∈ s.queue, x ∈ types s.head
  marked : ∀ n ∈ s.head, n.visited = true ↔ n.data ∈ s.queue

theorem touring_mark {src : Word} {s : Search} {i : Nat} {n : Node}
    (hdistinct : (types s.head).Nodup) (hs : Touring src s) (hn : s.head[i]? = some n)
    (hfresh : n.visited = false) (hled : Lib.Led (Converts s.head) src s.queue n.data) :
    Touring src (mark i n s) := by
  have hconverts : Converts (mark i n s).head = Converts s.head := converts_of_graph (graph_mark hn)
  have hmem := List.mem_of_getElem? hn
  refine ⟨?_, fun x hx => ?_, fun m hm => ?_⟩
  · rw [hconverts]
    apply Lib.Tour.cons hs.tour hled
    intro hqueue
    have hvisited := (hs.marked n hmem).mpr hqueue
    exact absurd hvisited (by simp [hfresh])
  · rw [types_of_graph (graph_mark hn)]
    rcases List.mem_cons.mp hx with rfl | hx
    · exact List.mem_map_of_mem hmem
    · exact hs.declared x hx
  · obtain ⟨j, hj⟩ := List.mem_iff_getElem?.mp hm
    have hlt : i < s.head.length := (List.getElem?_eq_some_iff.mp hn).1
    by_cases hthis : i = j
    · subst hthis
      obtain rfl : { n with visited := true } = m := by
        simpa [mark, List.getElem?_set_self hlt] using hj
      exact iff_of_true rfl List.mem_cons_self
    · have hold : s.head[j]? = some m := by
        rw [← hj]
        exact (List.getElem?_set_ne hthis).symm
      have hne : m.data ≠ n.data := fun heq => hthis (eq_of_data hdistinct hn hold heq.symm)
      have hqueue : m.data ∈ (mark i n s).queue ↔ m.data ∈ s.queue := by
        simp [mark, hne]
      rw [hqueue]
      exact hs.marked m (List.mem_of_getElem? hold)

-- The types that a visit of a type adds to the queue continue the tour.
theorem look_touring {inBounds : Nat → Bool} {src dest : Word} {fuel : Nat} {node : Option Nat}
    {s s' : Search} (hdistinct : (types s.head).Nodup) (hs : Touring src s)
    (hled : ∀ i n, node = some i → s.head[i]? = some n →
      Lib.Led (Converts s.head) src s.queue n.data)
    (h : look inBounds dest fuel node s = .ok s') :
    Touring src s' ∧ resetVisited s'.head = resetVisited s.head ∧ s.queue ⊆ s'.queue := by
  induction fuel generalizing node s s' with
  | zero => cases h
  | succ fuel ih =>
      cases node with
      | none =>
          obtain rfl := Except.ok.inj h
          exact ⟨hs, rfl, List.Subset.refl _⟩
      | some i =>
          rw [look] at h
          split at h
          · cases h
          · rename_i n hn
            split at h
            · obtain rfl := Except.ok.inj h
              exact ⟨hs, rfl, List.Subset.refl _⟩
            · rename_i hvisited
              obtain ⟨queue, hqueue, h⟩ := Lib.bind_ok h
              obtain ⟨-, rfl⟩ := push_eq_ok.mp hqueue
              have hgraph : resetVisited (mark i n s).head = resetVisited s.head := graph_mark hn
              have hmark : Touring src (mark i n s) :=
                touring_mark hdistinct hs hn (by simpa using hvisited) (hled i n rfl hn)
              -- what the node leads to can come next, now and later
              have hnext (t : Search) (ht : resetVisited t.head = resetVisited (mark i n s).head)
                  (hsub : (mark i n s).queue ⊆ t.queue) (c : Conv) (hc : c ∈ n.conv) :
                  Lib.Led (Converts t.head) src t.queue c.dest := by
                rw [converts_of_graph (ht.trans hgraph)]
                exact Or.inr ⟨n.data, hsub List.mem_cons_self, n, List.mem_of_getElem? hn,
                  rfl, c, hc, rfl⟩
              have hdistinct' (t : Search) (ht : resetVisited t.head =
                  resetVisited (mark i n s).head) :
                  (types t.head).Nodup := by
                rw [types_of_graph (ht.trans hgraph)]
                exact hdistinct
              have hinner : Touring src s' ∧ resetVisited s'.head = resetVisited (mark i n s).head ∧
                  (mark i n s).queue ⊆ s'.queue := by
                split at h
                · obtain rfl := Except.ok.inj h
                  exact ⟨hmark, rfl, List.Subset.refl _⟩
                · split at h
                  · rename_i hconv
                    obtain ⟨c, hc, rfl⟩ := searchConv_isSome.mp hconv
                    refine ih (hdistinct' (mark i n s) rfl) hmark (fun j m hj hm => ?_) h
                    rw [data_of_searchList hj hm]
                    exact hnext (mark i n s) rfl (List.Subset.refl _) c hc
                  · refine Lib.foldlM_invariant (fun t => Touring src t ∧
                      resetVisited t.head = resetVisited (mark i n s).head ∧
                        (mark i n s).queue ⊆ t.queue) ?_
                      ⟨hmark, rfl, List.Subset.refl _⟩ h
                    rintro t t' c hc ⟨ht, htgraph, hsub⟩ hrun
                    have hled' (j : Nat) (m : Node) (hj : searchFrom t.head i c.dest = some j)
                        (hm : t.head[j]? = some m) :
                        Lib.Led (Converts t.head) src t.queue m.data := by
                      rw [(data_of_searchFrom hj hm).1]
                      exact hnext t htgraph hsub c hc
                    obtain ⟨ht', hgraph', hsub'⟩ := ih (hdistinct' t htgraph) ht hled' hrun
                    exact ⟨ht', hgraph'.trans htgraph, List.Subset.trans hsub hsub'⟩
              obtain ⟨htour, hsame, hsub⟩ := hinner
              exact ⟨htour, hsame.trans hgraph, List.Subset.trans (List.subset_cons_self _ _) hsub⟩

-- What the indices of a visit are to the names of their types.
theorem leads_iff {head : List Node} (hd : Declared head) {dest : Word} {i j : Nat} {n m : Node}
    (hn : head[i]? = some n) (hm : head[j]? = some m) :
    Leads head dest i j ↔ Lib.Shortcut (Converts head) (Forward head) dest n.data m.data := by
  have hconv : (searchConv n.conv dest).isSome ↔ Converts head n.data dest := by
    rw [searchConv_isSome, converts_iff hd.distinct hn]
  have hforward : (∃ c ∈ n.conv, searchFrom head i c.dest = some j) ↔
      Forward head n.data m.data := by
    rw [Forward, converts_iff hd.distinct hn, idxOf_data hd.distinct hn, idxOf_data hd.distinct hm]
    constructor
    · rintro ⟨c, hc, hfound⟩
      obtain ⟨hdata, hle⟩ := (searchFrom_iff hd.distinct hm).mp hfound
      refine ⟨⟨c, hc, hdata.symm⟩, Nat.lt_of_le_of_ne hle ?_⟩
      rintro rfl
      obtain rfl : n = m := Option.some.inj (hn.symm.trans hm)
      exact hd.noSelf n (List.mem_of_getElem? hn) c hc hdata.symm
    · rintro ⟨⟨c, hc, hdata⟩, hlt⟩
      exact ⟨c, hc, (searchFrom_iff hd.distinct hm).mpr ⟨hdata.symm, Nat.le_of_lt hlt⟩⟩
  have hunfold : Leads head dest i j ↔ n.data ≠ dest ∧
      if (searchConv n.conv dest).isSome then searchList head dest = some j
      else ∃ c ∈ n.conv, searchFrom head i c.dest = some j := by
    simp [Leads, hn]
  rw [hunfold, Lib.Shortcut, ← hconv, ← hforward, searchList_iff hd.distinct hm]
  apply and_congr_right
  intro _
  split
  · rename_i h
    simp [h]
  · rename_i h
    simp [h]

theorem shortcut_of_leads {head : List Node} (hd : Declared head) {dest : Word} {i j : Nat}
    {n m : Node} (hn : head[i]? = some n) (hm : head[j]? = some m)
    (h : ReflTransGen (Leads head dest) i j) :
    ReflTransGen (Lib.Shortcut (Converts head) (Forward head) dest) n.data m.data := by
  induction h generalizing m with
  | refl =>
      obtain rfl : n = m := Option.some.inj (hn.symm.trans hm)
      exact .refl
  | @tail b c _ hstep ih =>
      obtain ⟨k, hk, -⟩ := id hstep
      exact .tail (ih hk) ((leads_iff hd hk hm).mp hstep)

theorem leads_of_shortcut {head : List Node} (hd : Declared head) {dest y : Word}
    {i : Nat} {n : Node} (hn : head[i]? = some n)
    (h : ReflTransGen (Lib.Shortcut (Converts head) (Forward head) dest) n.data y) :
    ∃ j m, head[j]? = some m ∧ m.data = y ∧ ReflTransGen (Leads head dest) i j := by
  induction h with
  | refl => exact ⟨i, n, hn, rfl, .refl⟩
  | @tail b c _ hstep ih =>
      obtain ⟨j, m, hm, rfl, hpath⟩ := ih
      have hconverts : Converts head m.data c := by
        obtain ⟨-, ⟨hconv, rfl⟩ | ⟨-, hforward⟩⟩ := hstep
        · exact hconv
        · exact hforward.1
      obtain ⟨k, hk⟩ := Option.isSome_iff_exists.mp
        (searchList_isSome.mpr (hconverts.mem_dest hd.closed))
      obtain ⟨m', hm', rfl⟩ := searchList_spec hk
      exact ⟨k, m', hm', rfl, .tail hpath ((leads_iff hd hm hm').mpr hstep)⟩

-- The search comes to the destination along conversions to types that are declared
-- later, and a last one of any kind.
theorem reached_iff {head : List Node} (hd : Declared head) {src dest : Word} (hne : src ≠ dest) :
    (∃ j m, head[j]? = some m ∧ m.data = dest ∧ j ∈ Reached head src dest) ↔
      ∃ x, ReflTransGen (Forward head) src x ∧ Converts head x dest := by
  have hshortcut : ReflTransGen (Lib.Shortcut (Converts head) (Forward head) dest) src dest ↔
      src = dest ∨ ∃ x, ReflTransGen (Forward head) src x ∧ Converts head x dest :=
    Lib.shortcut_iff fun _ _ h => h.1
  constructor
  · rintro ⟨j, m, hm, rfl, i, hi, hpath⟩
    obtain ⟨n, hn, rfl⟩ := searchList_spec hi
    exact (hshortcut.mp (shortcut_of_leads hd hn hm hpath)).resolve_left hne
  · intro h
    have hsrc : src ∈ types head := by
      obtain ⟨x, hpath, hlast⟩ := h
      induction hpath using ReflTransGen.head_induction_on with
      | refl => exact hlast.mem
      | head hstep _ _ => exact hstep.1.mem
    obtain ⟨i, hi⟩ := Option.isSome_iff_exists.mp (searchList_isSome.mpr hsrc)
    obtain ⟨n, hn, rfl⟩ := searchList_spec hi
    obtain ⟨j, m, hm, hdata, hpath⟩ := leads_of_shortcut hd hn (hshortcut.mpr (Or.inr h))
    exact ⟨j, m, hm, hdata, i, hi, hpath⟩

-- A path search makes a tour, which comes to the destination when there is such a path.
theorem lookForPath_touring {inBounds : Nat → Bool} {src dest : Word} {s s' : Search}
    (hd : Declared s.head) (hqueue : s.queue = []) (h : lookForPath inBounds src dest s = .ok s') :
    Touring src s' ∧ resetVisited s'.head = resetVisited s.head := by
  have hreset := resetVisited_resetVisited s.head
  have hstart : Touring src { s with head := resetVisited s.head, result := [] } := by
    refine ⟨?_, ?_, fun n hn => ?_⟩
    · rw [hqueue]
      exact .nil
    · simp [hqueue]
    · obtain ⟨m, -, rfl⟩ := List.mem_map.mp hn
      simp [hqueue]
  obtain ⟨htour, hgraph, -⟩ := look_touring (declared_of_graph hreset hd).distinct hstart
    (fun i n hi hn => Or.inl ⟨hqueue, data_of_searchList hi hn⟩) h
  exact ⟨htour, hgraph.trans hreset⟩

theorem mem_lookForPath {inBounds : Nat → Bool} {src dest : Word} {s s' : Search}
    (hd : Declared s.head) (hqueue : s.queue = []) (hne : src ≠ dest)
    (h : lookForPath inBounds src dest s = .ok s') :
    dest ∈ s'.queue ↔ ∃ x, ReflTransGen (Forward s.head) src x ∧ Converts s.head x dest := by
  obtain ⟨htour, hgraph⟩ := lookForPath_touring hd hqueue h
  have hmarked (j : Nat) : Marked s'.head j ↔ j ∈ Reached s.head src dest := by
    rw [← marked_lookForPath h]
    rfl
  rw [← reached_iff hd hne]
  constructor
  · intro hmem
    obtain ⟨n, hn, rfl⟩ := List.mem_map.mp (htour.declared dest hmem)
    obtain ⟨j, hj⟩ := List.mem_iff_getElem?.mp hn
    obtain ⟨m, hm, hdata, -⟩ := get_of_graph hgraph.symm hj
    exact ⟨j, m, hm, hdata, (hmarked j).mp ⟨n, hj, (htour.marked n hn).mpr hmem⟩⟩
  · rintro ⟨j, m, hm, rfl, hj⟩
    obtain ⟨n, hn, hvisited⟩ := (hmarked j).mpr hj
    obtain ⟨n', hn', hdata, -⟩ := get_of_graph hgraph hm
    obtain rfl : n' = n := Option.some.inj (hn'.symm.trans hn)
    rw [← hdata]
    exact (htour.marked n' (List.mem_of_getElem? hn)).mp hvisited

-- The list of the queue and of the result, from a declared type with a conversion on.
theorem backtrack_eq_climb {inBounds : Nat → Bool} (hbounds : ∀ i, inBounds i = true)
    {head : List Node} (hdistinct : (types head).Nodup) {queue : List Word}
    (hqueue : ∀ x ∈ queue, x ∈ types head) (last : Word) (rest : List Word) :
    backtrack inBounds head queue (last :: rest) =
      .ok (Lib.climb (Converts head) queue last rest) := by
  induction queue generalizing last rest with
  | nil => rfl
  | cons entry queue ih =>
      have hbehind (x : Word) (hx : x ∈ queue) : x ∈ types head :=
        hqueue x (List.mem_cons_of_mem entry hx)
      obtain ⟨i, hi⟩ := Option.isSome_iff_exists.mp
        (searchList_isSome.mpr (hqueue entry List.mem_cons_self))
      obtain ⟨n, hn, rfl⟩ := searchList_spec hi
      have hconv : (searchConv n.conv last).isSome ↔ Converts head n.data last := by
        rw [searchConv_isSome, converts_iff hdistinct hn]
      simp only [backtrack, hi, Option.bind_some, hn, push_ok hbounds, Lib.ok_bind, Lib.climb]
      by_cases hconverts : Converts head n.data last
      · rw [if_pos (hconv.mpr hconverts), if_pos hconverts]
        exact ih hbehind n.data (last :: rest)
      · rw [if_neg fun h => hconverts (hconv.mp h), if_neg hconverts]
        exact ih hbehind last rest

-- What the spooler can convert a file along.
structure ConversionPath (head : List Node) (src dest : Word) (path : List Word) : Prop where
  first : path.head? = some src
  last : path.getLast? = some dest
  distinct : path.Nodup
  declared : ∀ x ∈ path, x ∈ types head
  converts : path.IsChain (Converts head)

theorem ConversionPath.of_graph {head head' : List Node}
    (h : resetVisited head' = resetVisited head) {src dest : Word} {path : List Word}
    (hpath : ConversionPath head' src dest path) : ConversionPath head src dest path where
  first := hpath.first
  last := hpath.last
  distinct := hpath.distinct
  declared := by
    rw [← types_of_graph h]
    exact hpath.declared
  converts := by
    rw [← converts_of_graph h]
    exact hpath.converts

-- Going back over the tour ends at the source.
theorem readPath_path {inBounds : Nat → Bool} (hbounds : ∀ i, inBounds i = true) {src dest : Word}
    {s : Search} (hd : Declared s.head) (hs : Touring src s) (hne : src ≠ dest)
    (hdest : dest ∈ s.queue) :
    ∃ s', readPath inBounds dest s = .ok s' ∧ ConversionPath s.head src dest s'.result.reverse := by
  obtain ⟨before, behind, hqueue, hbefore⟩ := List.eq_append_cons_of_mem hdest
  have htour := hs.tour
  have hdeclared := hs.declared
  rw [hqueue] at htour hdeclared
  cases htour.of_suffix with
  | cons htour hled hnew =>
    have hself : ¬Converts s.head dest dest := fun h => h.ne hd.noSelf rfl
    have hbehind : behind ≠ [] := by
      rintro rfl
      rcases hled with ⟨-, heq⟩ | ⟨y, hy, -⟩
      · exact hne heq.symm
      · exact nomatch hy
    have hentries (x : Word) (hx : x ∈ dest :: behind) : x ∈ types s.head :=
      hdeclared x (List.mem_append_right before hx)
    obtain ⟨hfirst, hsuffix, hchain, hdistinct, hsub⟩ :=
      htour.climb hled (List.isChain_singleton dest)
      (List.nodup_singleton dest) (fun y hy => List.mem_singleton.mp hy ▸ hnew)
    have hrun : readPath inBounds dest s = .ok
        { s with queue := [], result := (Lib.climb (Converts s.head) behind dest []).reverse } := by
      rw [readPath, hqueue, dropWhile_of_notMem hbefore]
      simp only [push_ok hbounds, Lib.ok_bind, if_neg hbehind,
        backtrack_eq_climb hbounds hd.distinct hentries, Lib.climb, if_neg hself]
    refine ⟨_, hrun, ?_⟩
    rw [List.reverse_reverse]
    refine ⟨hfirst, ?_, hdistinct, fun x hx => ?_, hchain⟩
    · obtain ⟨front, hpath⟩ := hsuffix
      rw [← hpath, List.getLast?_concat]
    · apply hentries
      have hmem := hsub hx
      simp only [List.mem_append, List.mem_cons, List.not_mem_nil, or_false] at hmem ⊢
      exact hmem.symm

-- The search has room for every type when there are at most 128.
theorem fits_of_few {src dest : Word} {s : Search} (hd : Declared s.head) (hqueue : s.queue = [])
    (hne : src ≠ dest) (hfew : s.head.length ≤ arraySize) : Fits ⟨src, dest, s⟩ := by
  have hbounds : ∀ i, unlimited i = true := fun _ => rfl
  obtain ⟨t, ht, -⟩ := lookForPath_spec hbounds s hqueue hne
  obtain ⟨htour, hgraph⟩ := lookForPath_touring hd hqueue ht
  have hlength : t.queue.length ≤ (types t.head).length :=
    (htour.tour.nodup.subperm htour.declared).length_le
  have htypes : (types t.head).length = s.head.length := by
    rw [types, List.length_map]
    exact length_of_graph hgraph
  rw [Fits, if_neg hne, ← lookForPath_queue hqueue ht]
  omega

-- A search in declared types ends between two calls, and with a path when it has a result.
theorem bfs_path {src dest : Word} {s : Search} (hd : Declared s.head) (hqueue : s.queue = [])
    (hne : src ≠ dest) (hfew : s.head.length ≤ arraySize) :
    ∃ s', bfs inArray src dest s = .ok s' ∧ s'.queue = [] ∧
      (s'.result ≠ [] → ConversionPath s.head src dest s'.result.reverse) ∧
      (s'.result ≠ [] ↔ ∃ x, ReflTransGen (Forward s.head) src x ∧ Converts s.head x dest) := by
  have hbounds : ∀ i, unlimited i = true := fun _ => rfl
  obtain ⟨s', hrun, hempty, -, hresult⟩ := bfs_spec hbounds src dest hqueue
  obtain ⟨t, ht, -⟩ := lookForPath_spec hbounds s hqueue hne
  obtain ⟨htour, hgraph⟩ := lookForPath_touring hd hqueue ht
  have hfound : s'.result ≠ [] ↔ dest ∈ t.queue := by
    rw [ne_eq, hresult]
    constructor
    · intro h
      by_contra hnot
      apply h
      refine ⟨hne, fun t' ht' => ?_⟩
      obtain rfl : t = t' := Except.ok.inj (ht.symm.trans ht')
      exact hnot
    · exact fun hmem h => h.2 t ht hmem
  have hinArray := (bfs_iff ⟨hqueue, hd.noSelf⟩).mpr ⟨hrun, fits_of_few hd hqueue hne hfew⟩
  refine ⟨s', hinArray, hempty, fun h => ?_, ?_⟩
  · have hdt : Declared t.head := declared_of_graph hgraph hd
    obtain ⟨s'', hread, hpath⟩ := readPath_path hbounds hdt htour hne (hfound.mp h)
    rw [bfs_of_ne unlimited hne, ht, Lib.ok_bind] at hrun
    obtain rfl : s' = s'' := Except.ok.inj (hrun.symm.trans hread)
    exact hpath.of_graph hgraph
  · rw [hfound]
    exact mem_lookForPath hd hqueue hne ht

-- A pipeline of three types, whose middle type is declared before or behind the first.
def pipeline (first second : Word) : List Declaration :=
  [.addList first, .addList second, .addList (ascii "c"),
    .addConv (ascii "a") (ascii "b") (ascii "f") [],
    .addConv (ascii "b") (ascii "c") (ascii "g") []]

section

variable (calls : List Declaration) (src dest : Word) (s : Search)
  (hfew : (built calls).length ≤ 128) (hgraph : resetVisited s.head = resetVisited (built calls))
  (hloc : s.queue = []) (hne : src ≠ dest)

include hfew hgraph hloc hne

-- What a search finds is a path, whatever types are marked before it.
theorem bfs_finds_path :
    ∃ s', bfs inArray src dest s = .ok s' ∧ s'.queue = [] ∧
      (s'.result ≠ [] → ConversionPath (built calls) src dest s'.result.reverse) := by
  have hd := declared_of_graph hgraph (declared_built calls)
  obtain ⟨s', hrun, hqueue, hpath, -⟩ := bfs_path hd hloc hne (length_of_graph hgraph ▸ hfew)
  exact ⟨s', hrun, hqueue, fun h => (hpath h).of_graph hgraph⟩

end

-- Every type is marked before the call, and result has an old entry.
theorem bfs_finds_path_three :
    let calls := pipeline (ascii "a") (ascii "b")
    let s : Search := ⟨(built calls).map fun n => { n with visited := true }, [], [ascii "b"]⟩
    (built calls).length ≤ 128 ∧ resetVisited s.head = resetVisited (built calls) ∧ s.queue = [] ∧
      ascii "a" ≠ ascii "c" ∧ ∃ s', bfs inArray (ascii "a") (ascii "c") s = .ok s' ∧ s'.queue = [] ∧
        (s'.result ≠ [] → ConversionPath (built calls) (ascii "a") (ascii "c")
          s'.result.reverse) := by
  intro calls s
  have hfew : (built calls).length ≤ 128 := by decide
  have hgraph : resetVisited s.head = resetVisited (built calls) := by decide
  have hne : ascii "a" ≠ ascii "c" := by decide
  exact ⟨hfew, hgraph, rfl, hne, bfs_finds_path calls (ascii "a") (ascii "c") s hfew hgraph rfl hne⟩

section

variable (calls : List Declaration) (src dest : Word) (s : Search)
  (hfew : (built calls).length ≤ 128) (hgraph : resetVisited s.head = resetVisited (built calls))
  (hloc : s.queue = []) (hne : src ≠ dest)

include hfew hgraph hloc hne

-- A chain of conversions is found when it, or another one, leads to types declared later
-- and from these to the destination.
theorem bfs_complete_iff :
    (TransGen (Converts (built calls)) src dest →
      ∃ s', bfs inArray src dest s = .ok s' ∧ s'.result ≠ []) ↔
      (TransGen (Converts (built calls)) src dest →
        ∃ x, ReflTransGen (Forward (built calls)) src x ∧ Converts (built calls) x dest) := by
  have hd := declared_of_graph hgraph (declared_built calls)
  obtain ⟨s', hrun, -, -, hfound⟩ := bfs_path hd hloc hne (length_of_graph hgraph ▸ hfew)
  rw [forward_of_graph hgraph, converts_of_graph hgraph] at hfound
  apply imp_congr_right
  intro _
  rw [← hfound]
  constructor
  · rintro ⟨t, ht, hresult⟩
    obtain rfl : s' = t := Except.ok.inj (hrun.symm.trans ht)
    exact hresult
  · exact fun hresult => ⟨s', hrun, hresult⟩

end

theorem bfs_complete_three :
    let calls := pipeline (ascii "a") (ascii "b")
    let s : Search := ⟨built calls, [], []⟩
    (built calls).length ≤ 128 ∧ ascii "a" ≠ ascii "c" ∧
      ((TransGen (Converts (built calls)) (ascii "a") (ascii "c") →
          ∃ s', bfs inArray (ascii "a") (ascii "c") s = .ok s' ∧ s'.result ≠ []) ↔
        (TransGen (Converts (built calls)) (ascii "a") (ascii "c") →
          ∃ x, ReflTransGen (Forward (built calls)) (ascii "a") x ∧
            Converts (built calls) x (ascii "c"))) := by
  intro calls s
  have hfew : (built calls).length ≤ 128 := by decide
  have hne : ascii "a" ≠ ascii "c" := by decide
  exact ⟨hfew, hne, bfs_complete_iff calls (ascii "a") (ascii "c") s hfew rfl rfl hne⟩

-- The middle type is declared before the first one, and the search from the first one on
-- does not come to it.
theorem bfs_complete_not :
    let calls := pipeline (ascii "b") (ascii "a")
    let s : Search := ⟨built calls, [], []⟩
    (built calls).length ≤ 128 ∧ ascii "a" ∈ types (built calls) ∧ ascii "c" ∈ types (built calls) ∧
      ascii "a" ≠ ascii "c" ∧ TransGen (Converts (built calls)) (ascii "a") (ascii "c") ∧
      ¬∃ s', bfs inArray (ascii "a") (ascii "c") s = .ok s' ∧ s'.result ≠ [] := by
  intro calls s
  have hfirst : Converts (built calls) (ascii "a") (ascii "b") := by decide
  have hlast : Converts (built calls) (ascii "b") (ascii "c") := by decide
  refine ⟨by decide, by decide, by decide, by decide, .tail (.single hfirst) hlast, ?_⟩
  rintro ⟨s', hrun, hresult⟩
  have hnone : (bfs inArray (ascii "a") (ascii "c") s).map Search.result = .ok [] := by decide
  rw [hrun] at hnone
  exact hresult (Except.ok.inj hnone)

end CSE320.Spooler
