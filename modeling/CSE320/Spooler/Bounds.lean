import CSE320.Spooler.Reach
import CSE320.Spooler.Walk

namespace CSE320.Spooler

open Lib (ascii)

def unlimited : Nat → Bool := fun _ => true

-- The arrays have 128 places.
def arraySize : Nat := 128

def inArray : Nat → Bool := fun i => i < arraySize

-- The places that are filled when an array grows.
def Room (inBounds : Nat → Bool) (array array' : List Word) : Prop :=
  ∀ i, array.length ≤ i → i < array'.length → inBounds i = true

theorem Room.refl (inBounds : Nat → Bool) (array : List Word) : Room inBounds array array :=
  fun i h h' => by omega

theorem room_trans {inBounds : Nat → Bool} {first second third : List Word}
    (h : first.length ≤ second.length) (h' : second.length ≤ third.length) :
    Room inBounds first third ↔ Room inBounds first second ∧ Room inBounds second third := by
  constructor
  · intro hroom
    exact ⟨fun i hi hlt => hroom i hi (by omega), fun i hi hlt => hroom i (by omega) hlt⟩
  · rintro ⟨hfirst, hsecond⟩ i hi hlt
    by_cases hmiddle : i < second.length
    · exact hfirst i hi hmiddle
    · exact hsecond i (by omega) hlt

theorem room_cons {inBounds : Nat → Bool} {value : Word} {array : List Word} :
    Room inBounds array (value :: array) ↔ inBounds array.length = true := by
  constructor
  · exact fun h => h array.length (Nat.le_refl _) (Nat.lt_succ_self _)
  · intro h i hi hlt
    obtain rfl : i = array.length := Nat.le_antisymm (Nat.le_of_lt_succ hlt) hi
    exact h

section

variable {α : Type} {inBounds : Nat → Bool} {array : α → List Word} {a : α}

-- The first computation is the second one as long as the places that it fills in an
-- array are within the bounds.
structure Confined (inBounds : Nat → Bool) (array : α → List Word) (a : α)
    (x y : Except Fault α) : Prop where
  room : ∀ b, x = .ok b ↔ y = .ok b ∧ Room inBounds (array a) (array b)
  longer : ∀ b, y = .ok b → (array a).length ≤ (array b).length
  agrees : ∀ b, y = .ok b → Agrees x b

theorem Confined.ok {b : α} (h : array b = array a) :
    Confined inBounds array a (.ok b) (.ok b) := by
  refine ⟨fun c => ⟨fun hc => ⟨hc, ?_⟩, fun hc => hc.1⟩, fun c hc => ?_, fun c hc => Or.inl hc⟩
  · rw [← Except.ok.inj hc, h]
    exact .refl inBounds (array a)
  · rw [← Except.ok.inj hc, h]

theorem Confined.error (fault : Fault) : Confined inBounds array a (.error fault) (.error fault) :=
  ⟨fun _ => ⟨fun h => (nomatch h), fun h => (nomatch h.1)⟩, fun _ h => (nomatch h),
    fun _ h => (nomatch h)⟩

theorem Confined.bind {x y : Except Fault α} {f g : α → Except Fault α}
    (h : Confined inBounds array a x y) (hrest : ∀ b, Confined inBounds array b (f b) (g b)) :
    Confined inBounds array a (x >>= f) (y >>= g) := by
  refine ⟨fun c => ⟨fun hc => ?_, fun hc => ?_⟩, fun c hc => ?_, fun c hc => ?_⟩
  · obtain ⟨b, hx, hf⟩ := Lib.bind_ok hc
    obtain ⟨hy, hfirst⟩ := (h.room b).mp hx
    obtain ⟨hg, hsecond⟩ := ((hrest b).room c).mp hf
    refine ⟨by rw [hy]; exact hg, ?_⟩
    exact (room_trans (h.longer b hy) ((hrest b).longer c hg)).mpr ⟨hfirst, hsecond⟩
  · obtain ⟨b, hy, hg⟩ := Lib.bind_ok hc.1
    obtain ⟨hfirst, hsecond⟩ := (room_trans (h.longer b hy) ((hrest b).longer c hg)).mp hc.2
    rw [(h.room b).mpr ⟨hy, hfirst⟩]
    exact ((hrest b).room c).mpr ⟨hg, hsecond⟩
  · obtain ⟨b, hy, hg⟩ := Lib.bind_ok hc
    exact Nat.le_trans (h.longer b hy) ((hrest b).longer c hg)
  · obtain ⟨b, hy, hg⟩ := Lib.bind_ok hc
    exact (h.agrees b hy).bind ((hrest b).agrees c hg)

theorem Confined.push {value : Word} {b : α} {f g : List Word → Except Fault α}
    (hb : array b = value :: array a)
    (h : Confined inBounds array b (f (value :: array a)) (g (value :: array a))) :
    Confined inBounds array a (push inBounds value (array a) >>= f)
      (push unlimited value (array a) >>= g) := by
  have hunlimited : Spooler.push unlimited value (array a) = .ok (value :: array a) := rfl
  have hlonger (c : α) (hc : g (value :: array a) = .ok c) : (array b).length ≤ (array c).length :=
    h.longer c hc
  have hstep : (array a).length ≤ (array b).length := by simp [hb]
  rw [hunlimited, Lib.ok_bind]
  refine ⟨fun c => ⟨fun hc => ?_, fun hc => ?_⟩, fun c hc => Nat.le_trans hstep (hlonger c hc),
    fun c hc => ?_⟩
  · obtain ⟨_, hpush, hf⟩ := Lib.bind_ok hc
    obtain ⟨hplace, rfl⟩ := push_eq_ok.mp hpush
    obtain ⟨hg, hroom⟩ := (h.room c).mp hf
    refine ⟨hg, (room_trans hstep (hlonger c hg)).mpr ⟨?_, hroom⟩⟩
    rw [hb]
    exact room_cons.mpr hplace
  · obtain ⟨hplace, hroom⟩ := (room_trans hstep (hlonger c hc.1)).mp hc.2
    rw [hb] at hplace
    rw [push_eq_ok.mpr ⟨room_cons.mp hplace, rfl⟩, Lib.ok_bind]
    exact (h.room c).mpr ⟨hc.1, hroom⟩
  · refine Agrees.bind ?_ (h.agrees c hc)
    unfold Spooler.push
    split
    · exact Or.inl rfl
    · exact Or.inr rfl

theorem Confined.foldlM {β : Type} {body body' : α → β → Except Fault α}
    (hbody : ∀ a label, Confined inBounds array a (body a label) (body' a label))
    (labels : List β) :
    Confined inBounds array a (labels.foldlM body a) (labels.foldlM body' a) := by
  induction labels generalizing a with
  | nil => exact .ok rfl
  | cons label labels ih =>
      rw [List.foldlM_cons, List.foldlM_cons]
      exact (hbody a label).bind fun b => ih

end

section

variable {inBounds : Nat → Bool} {dest : Word}

theorem confined_look {fuel : Nat} {node : Option Nat} {s : Search} :
    Confined inBounds Search.queue s (look inBounds dest fuel node s)
      (look unlimited dest fuel node s) := by
  induction fuel generalizing node s with
  | zero => exact .error _
  | succ fuel ih =>
      cases node with
      | none => exact .ok rfl
      | some i =>
          unfold look
          cases hn : s.head[i]? with
          | none => exact .error _
          | some n =>
              simp only
              split
              · exact .ok rfl
              · refine .push (b := mark i n s) rfl ?_
                split
                · exact .ok rfl
                · split
                  · exact ih
                  · exact .foldlM (fun t temp => ih) n.conv

theorem confined_backtrack {head : List Node} {queue result : List Word} :
    Confined inBounds (fun result => result) result (backtrack inBounds head queue result)
      (backtrack unlimited head queue result) := by
  induction queue generalizing result with
  | nil => exact .ok rfl
  | cons entry queue ih =>
      unfold backtrack
      split
      · exact .error _
      · exact .error _
      · split
        · exact .push rfl ih
        · exact ih

-- Each entry of the queue is appended at most once.
theorem backtrack_length {head : List Node} {queue result r : List Word}
    (h : backtrack unlimited head queue result = .ok r) :
    r.length ≤ result.length + queue.length := by
  induction queue generalizing result with
  | nil =>
      obtain rfl := Except.ok.inj h
      exact Nat.le_refl _
  | cons entry queue ih =>
      unfold backtrack at h
      split at h
      · exact nomatch h
      · exact nomatch h
      · split at h
        · obtain ⟨_, hpush, hrest⟩ := Lib.bind_ok h
          obtain ⟨-, rfl⟩ := push_eq_ok.mp hpush
          have hlength := ih hrest
          simp only [List.length_cons] at hlength ⊢
          omega
        · have hlength := ih h
          simp only [List.length_cons] at hlength ⊢
          omega

end

-- Between two calls the queue is empty, and no type is converted to itself.
structure Ready (s : Search) : Prop where
  queue : s.queue = []
  noSelf : ∀ n ∈ s.head, ∀ c ∈ n.conv, c.dest ≠ n.data

-- The entries that a call needs: one more in result for a type that is printed as it
-- is, otherwise one in queue for each type that the search comes to.
def Fits (call : SearchCall) : Prop :=
  if call.src = call.dest then call.list.result.length < arraySize
  else (Reached call.list.head call.src call.dest).ncard ≤ arraySize

theorem room_nil {array : List Word} : Room inArray [] array ↔ array.length ≤ arraySize := by
  constructor
  · intro h
    by_contra hlong
    have hplace : inArray arraySize = true := h arraySize (Nat.zero_le _) (by omega)
    exact absurd hplace (by decide)
  · intro h i _ hlt
    exact decide_eq_true (Nat.lt_of_lt_of_le hlt h)

theorem lookForPath_iff {src dest : Word} {s t : Search} (h : Ready s) :
    lookForPath inArray src dest s = .ok t ↔
      lookForPath unlimited src dest s = .ok t ∧ (Reached s.head src dest).ncard ≤ arraySize := by
  rw [lookForPath, confined_look.room t]
  refine and_congr_right fun hlook => ?_
  rw [← lookForPath_queue h.queue hlook, ← room_nil]
  simp only [h.queue]

-- The last entry is the destination itself, which has no conversion to itself.
theorem backtrack_of_dest {head : List Node} {dest : Word} {queue r : List Word}
    (hself : ∀ n ∈ head, ∀ c ∈ n.conv, c.dest ≠ n.data)
    (h : backtrack unlimited head (dest :: queue) [dest] = .ok r) :
    r.length ≤ (dest :: queue).length := by
  unfold backtrack at h
  split at h
  · exact nomatch h
  · exact nomatch h
  · rename_i node last rest hnode hlast
    obtain ⟨rfl, rfl⟩ := List.cons.inj hlast
    obtain ⟨i, hi, hn⟩ := Option.bind_eq_some_iff.mp hnode
    have hdata := data_of_searchList hi hn
    split at h
    · rename_i hconv
      obtain ⟨c, hc, hdest⟩ := searchConv_isSome.mp hconv
      exact absurd (hdest.trans hdata.symm) (hself node (List.mem_of_getElem? hn) c hc)
    · have hlength := backtrack_length h
      simp only [List.length_cons, List.length_nil] at hlength ⊢
      omega

theorem readPath_iff {dest : Word} {s s' : Search}
    (hself : ∀ n ∈ s.head, ∀ c ∈ n.conv, c.dest ≠ n.data) (hqueue : s.queue.length ≤ arraySize) :
    readPath inArray dest s = .ok s' ↔ readPath unlimited dest s = .ok s' := by
  unfold readPath
  have hlength : (s.queue.dropWhile (· ≠ dest)).length ≤ s.queue.length :=
    (List.dropWhile_sublist _).length_le
  split
  · exact Iff.rfl
  · rename_i entry queue hdrop
    have hentry : entry = dest := by
      have hhead := List.head?_dropWhile_not (fun x => decide (x ≠ dest)) s.queue
      rw [hdrop] at hhead
      simpa using hhead
    subst hentry
    rw [hdrop] at hlength
    have hfirst : push inArray entry [] = push unlimited entry [] := rfl
    have hone : push unlimited entry [] = .ok [entry] := rfl
    rw [hfirst, hone, Lib.ok_bind, Lib.ok_bind]
    split
    · exact Iff.rfl
    · constructor
      · intro h
        obtain ⟨r, hr, hrest⟩ := Lib.bind_ok h
        rw [((confined_backtrack.room r).mp hr).1]
        exact hrest
      · intro h
        obtain ⟨r, hr, hrest⟩ := Lib.bind_ok h
        have hshort := backtrack_of_dest hself hr
        have hroom : Room inArray [entry] r := fun i _ hlt => decide_eq_true (by omega)
        rw [(confined_backtrack.room r).mpr ⟨hr, hroom⟩]
        exact hrest

theorem noSelf_of_graph {head head' : List Node} (h : resetVisited head' = resetVisited head)
    (hself : ∀ n ∈ head, ∀ c ∈ n.conv, c.dest ≠ n.data) :
    ∀ n ∈ head', ∀ c ∈ n.conv, c.dest ≠ n.data := by
  intro n' hn' c hc
  obtain ⟨i, hi⟩ := List.mem_iff_getElem?.mp hn'
  obtain ⟨n, hn, hdata, hconv⟩ := get_of_graph h.symm hi
  rw [← hdata]
  exact hself n (List.mem_of_getElem? hn) c (hconv ▸ hc)

theorem bfs_iff {src dest : Word} {s s' : Search} (h : Ready s) :
    bfs inArray src dest s = .ok s' ↔ bfs unlimited src dest s = .ok s' ∧ Fits ⟨src, dest, s⟩ := by
  unfold Fits
  by_cases hsame : src = dest
  · rw [bfs, bfs, if_pos hsame, if_pos hsame, if_pos hsame]
    have hunlimited : push unlimited src s.result = .ok (src :: s.result) := rfl
    rw [hunlimited, Lib.ok_bind]
    by_cases hplace : s.result.length < arraySize
    · have hpush : push inArray src s.result = .ok (src :: s.result) :=
        push_eq_ok.mpr ⟨decide_eq_true hplace, rfl⟩
      rw [hpush, Lib.ok_bind]
      exact ⟨fun hs => ⟨hs, hplace⟩, fun hs => hs.1⟩
    · refine ⟨fun hs => ?_, fun hs => absurd hs.2 hplace⟩
      obtain ⟨_, hpush, -⟩ := Lib.bind_ok hs
      exact absurd (of_decide_eq_true (push_eq_ok.mp hpush).1) hplace
  · rw [bfs_of_ne inArray hsame, bfs_of_ne unlimited hsame, if_neg hsame]
    have hread (t : Search) (ht : lookForPath unlimited src dest s = .ok t)
        (hfits : (Reached s.head src dest).ncard ≤ arraySize) :
        readPath inArray dest t = .ok s' ↔ readPath unlimited dest t = .ok s' := by
      refine readPath_iff (noSelf_of_graph ?_ h.noSelf) ?_
      · rw [(look_visits ht).graph, resetVisited_resetVisited]
      · rw [lookForPath_queue h.queue ht]
        exact hfits
    constructor
    · intro hs
      obtain ⟨t, hlook, hrest⟩ := Lib.bind_ok hs
      obtain ⟨ht, hfits⟩ := (lookForPath_iff h).mp hlook
      rw [ht]
      exact ⟨(hread t ht hfits).mp hrest, hfits⟩
    · rintro ⟨hs, hfits⟩
      obtain ⟨t, ht, hrest⟩ := Lib.bind_ok hs
      rw [(lookForPath_iff h).mpr ⟨ht, hfits⟩]
      exact (hread t ht hfits).mpr hrest

theorem push_unlimited {value : Word} {array r : List Word} (h : push inArray value array = .ok r) :
    push unlimited value array = .ok r :=
  push_eq_ok.mpr ⟨rfl, (push_eq_ok.mp h).2⟩

theorem push_agrees (value : Word) (array : List Word) :
    Agrees (push inArray value array) (value :: array) := by
  unfold push
  split
  · exact Or.inl rfl
  · exact Or.inr rfl

theorem readPath_unlimited {dest : Word} {s s' : Search} (h : readPath inArray dest s = .ok s') :
    readPath unlimited dest s = .ok s' := by
  unfold readPath at h ⊢
  split at h
  · exact h
  · obtain ⟨result, hpush, hrest⟩ := Lib.bind_ok h
    rw [push_unlimited hpush, Lib.ok_bind]
    split at hrest
    · rw [if_pos (by assumption)]
      exact hrest
    · rw [if_neg (by assumption)]
      obtain ⟨r, hr, hlast⟩ := Lib.bind_ok hrest
      rw [((confined_backtrack.room r).mp hr).1]
      exact hlast

theorem readPath_agrees {dest : Word} {s s' : Search} (h : readPath unlimited dest s = .ok s') :
    Agrees (readPath inArray dest s) s' := by
  unfold readPath at h ⊢
  split at h
  · exact Or.inl h
  · have hone : push unlimited dest [] = .ok [dest] := rfl
    rw [hone, Lib.ok_bind] at h
    refine (push_agrees dest []).bind ?_
    split at h
    · rw [if_pos (by assumption)]
      exact Or.inl h
    · rw [if_neg (by assumption)]
      obtain ⟨r, hr, hlast⟩ := Lib.bind_ok h
      exact (confined_backtrack.agrees r hr).bind (Or.inl hlast)

theorem bfs_unlimited {src dest : Word} {s s' : Search} (h : bfs inArray src dest s = .ok s') :
    bfs unlimited src dest s = .ok s' := by
  by_cases hsame : src = dest
  · rw [bfs, if_pos hsame] at h ⊢
    obtain ⟨result, hpush, hrest⟩ := Lib.bind_ok h
    rw [push_unlimited hpush]
    exact hrest
  · rw [bfs_of_ne _ hsame] at h ⊢
    obtain ⟨t, hlook, hrest⟩ := Lib.bind_ok h
    rw [lookForPath, ((confined_look.room t).mp hlook).1]
    exact readPath_unlimited hrest

theorem bfs_agrees {src dest : Word} {s s' : Search} (h : bfs unlimited src dest s = .ok s') :
    Agrees (bfs inArray src dest s) s' := by
  by_cases hsame : src = dest
  · rw [bfs, if_pos hsame] at h ⊢
    obtain ⟨result, hpush, hrest⟩ := Lib.bind_ok h
    obtain ⟨-, rfl⟩ := push_eq_ok.mp hpush
    exact (push_agrees src s.result).bind (Or.inl hrest)
  · rw [bfs_of_ne _ hsame] at h ⊢
    obtain ⟨t, hlook, hrest⟩ := Lib.bind_ok h
    exact (confined_look.agrees t hlook).bind (readPath_agrees hrest)

theorem Ready.bfs {src dest : Word} {s s' : Search} (h : Ready s)
    (hrun : bfs unlimited src dest s = .ok s') :
    Ready s' := by
  obtain ⟨t, ht, hqueue, hgraph, -⟩ :=
    bfs_spec (fun _ => rfl : ∀ i, unlimited i = true) src dest h.queue
  obtain rfl : t = s' := Except.ok.inj (ht.symm.trans hrun)
  exact ⟨hqueue, noSelf_of_graph hgraph h.noSelf⟩

def Env.within (env : Env) (inBounds : Nat → Bool) : Env := { env with inBounds }

-- The state of every call so far is one between two calls.
structure Known (s : State) : Prop where
  ready : Ready s.list
  calls : ∀ call ∈ s.searches, Ready call.list

theorem Ready.type {s : Search} (h : Ready s) (data : Word) :
    Ready { s with head := s.head ++ [⟨data, false, []⟩] } := by
  refine ⟨h.queue, fun n hn c hc => ?_⟩
  rcases List.mem_append.mp hn with hn | hn
  · exact h.noSelf n hn c hc
  · rw [List.mem_singleton.mp hn] at hc
    exact nomatch hc

@[simp] theorem addedConv_data (data2 convProg : Word) (args : List Word) (n : Node) :
    (addedConv data2 convProg args n).data = n.data := by
  unfold addedConv
  split
  · rfl
  · rfl

theorem addedConv_dest {data2 convProg y : Word} {args : List Word} {n : Node} :
    (∃ c ∈ (addedConv data2 convProg args n).conv, c.dest = y) ↔
      y = data2 ∨ ∃ c ∈ n.conv, c.dest = y := by
  unfold addedConv
  split
  · rename_i h
    have hold := searchConv_isSome.mp h
    constructor
    · exact Or.inr
    · rintro (rfl | hconv)
      · exact hold
      · exact hconv
  · simp [or_comm, eq_comm]

theorem Ready.conversion {s : Search} (h : Ready s) {data1 data2 : Word} {d1 : Nat}
    (convProg : Word) (args : List Word) (hne : data1 ≠ data2)
    (hd1 : searchList s.head data1 = some d1) :
    Ready { s with head := s.head.modify d1 (addedConv data2 convProg args) } := by
  refine ⟨h.queue, fun n' hn' c hc => ?_⟩
  obtain ⟨i, hi⟩ := List.mem_iff_getElem?.mp hn'
  rw [List.getElem?_modify] at hi
  obtain ⟨n, hn, rfl⟩ := Option.map_eq_some_iff.mp hi
  have hold := h.noSelf n (List.mem_of_getElem? hn)
  by_cases hthis : d1 = i
  · subst hthis
    rw [if_pos rfl] at hc ⊢
    rw [addedConv_data]
    rcases addedConv_dest.mp ⟨c, hc, rfl⟩ with hdest | ⟨c', hc', hdest⟩
    · rw [hdest, data_of_searchList hd1 hn]
      exact hne.symm
    · rw [← hdest]
      exact hold c' hc'
  · rw [if_neg hthis] at hc ⊢
    exact hold c hc

-- What the calls of a run with room for every entry find.
theorem walk_known (env : Env) :
    Walk (env.within unlimited) (env.within unlimited) (fun s r => Known s → Known r) fun _ =>
      True where
  refl := fun s h => h
  trans := fun s r t hsr hrt h => hrt (hsr h)
  back := fun s r _ _ => trivial
  outcomes := ⟨rfl, rfl, rfl⟩
  other := fun s r hlist hsearches _ h => ⟨hlist ▸ h.ready, hsearches ▸ h.calls⟩
  type := fun s data _ h => ⟨h.ready.type data, h.calls⟩
  conversion := fun s data1 data2 d1 d2 convProg args hne hd1 _ h =>
    ⟨h.ready.conversion convProg args hne hd1, h.calls⟩
  search := fun s src dest list hlist => by
    refine ⟨fun h => ⟨h.ready.bfs hlist, fun call hcall => ?_⟩, fun _ => hlist, Or.inl hlist⟩
    rcases List.mem_append.mp hcall with hcall | hcall
    · exact h.calls call hcall
    · rw [List.mem_singleton.mp hcall]
      exact h.ready
  parent := fun s _ h => ⟨h.ready, h.calls⟩
  child := fun s _ _ _ h => ⟨h.ready, h.calls⟩

-- A run whose calls all fit is the run with 128 places.
theorem walk_inArray (env : Env) :
    Walk (env.within unlimited) (env.within inArray) (fun s r => s.searches ⊆ r.searches)
      fun r => ∀ call ∈ r.searches, Ready call.list ∧ Fits call where
  refl := fun s call h => h
  trans := fun s r t hsr hrt call h => hrt (hsr h)
  back := fun s r hsr hr call h => hr call (hsr h)
  outcomes := ⟨rfl, rfl, rfl⟩
  other := fun s r _ hsearches _ => hsearches ▸ List.Subset.refl s.searches
  type := fun s data _ call h => h
  conversion := fun s data1 data2 d1 d2 convProg args _ _ _ call h => h
  search := fun s src dest list hlist => by
    refine ⟨fun call h => List.mem_append_left _ h, fun hgood => ?_, bfs_agrees hlist⟩
    obtain ⟨hready, hfits⟩ :=
      hgood ⟨src, dest, s.list⟩ (List.mem_append_right _ (List.mem_singleton_self _))
    exact (bfs_iff hready).mpr ⟨hlist, hfits⟩
  parent := fun s _ call h => h
  child := fun s _ _ _ call h => h

-- The calls of a run with 128 places fit.
theorem walk_fits (env : Env) :
    Walk (env.within inArray) (env.within unlimited)
      (fun s r => (Known s ∧ ∀ call ∈ s.searches, Fits call) →
        Known r ∧ ∀ call ∈ r.searches, Fits call)
      fun _ => True where
  refl := fun s h => h
  trans := fun s r t hsr hrt h => hrt (hsr h)
  back := fun s r _ _ => trivial
  outcomes := ⟨rfl, rfl, rfl⟩
  other := fun s r hlist hsearches _ h =>
    ⟨⟨hlist ▸ h.1.ready, hsearches ▸ h.1.calls⟩, hsearches ▸ h.2⟩
  type := fun s data _ h => ⟨⟨h.1.ready.type data, h.1.calls⟩, h.2⟩
  conversion := fun s data1 data2 d1 d2 convProg args hne hd1 _ h =>
    ⟨⟨h.1.ready.conversion convProg args hne hd1, h.1.calls⟩, h.2⟩
  search := fun s src dest list hlist => by
    refine ⟨fun h => ?_, fun _ => bfs_unlimited hlist, Or.inl (bfs_unlimited hlist)⟩
    obtain ⟨hrun, hfits⟩ := (bfs_iff h.1.ready).mp hlist
    refine ⟨⟨h.1.ready.bfs hrun, fun call hcall => ?_⟩, fun call hcall => ?_⟩
    · rcases List.mem_append.mp hcall with hcall | hcall
      · exact h.1.calls call hcall
      · rw [List.mem_singleton.mp hcall]
        exact h.1.ready
    · rcases List.mem_append.mp hcall with hcall | hcall
      · exact h.2 call hcall
      · rw [List.mem_singleton.mp hcall]
        exact hfits
  parent := fun s _ h => ⟨⟨h.1.ready, h.1.calls⟩, h.2⟩
  child := fun s _ _ _ h => ⟨⟨h.1.ready, h.1.calls⟩, h.2⟩

theorem known_start : Known .start := by
  refine ⟨⟨rfl, ?_⟩, ?_⟩
  · exact fun n hn => nomatch hn
  · exact fun call hcall => nomatch hcall

-- Sessions that return are the ones with room for every entry whose calls fit.
theorem session_iff (env : Env) (commands : List (List Word)) (s : State) :
    session (env.within inArray) commands .start = .ok s ↔
      session (env.within unlimited) commands .start = .ok s ∧ ∀ call ∈ s.searches, Fits call := by
  constructor
  · intro h
    obtain ⟨hstep, hsame, -⟩ := (walk_fits env).session commands s h
    exact ⟨hsame trivial, (hstep ⟨known_start, fun call hcall => nomatch hcall⟩).2⟩
  · rintro ⟨h, hfits⟩
    have hknown := ((walk_known env).session commands s h).1 known_start
    exact ((walk_inArray env).session commands s h).2.1 fun call hcall =>
      ⟨hknown.calls call hcall, hfits call hcall⟩

theorem session_before {env : Env} {pre commands : List (List Word)} (h : pre <+: commands)
    {s : State} {fault : Fault} (hrun : session env pre s = .error fault) :
    session env commands s = .error fault := by
  induction pre generalizing commands s with
  | nil => cases hrun
  | cons words pre ih =>
      obtain ⟨rest, rfl⟩ := h
      rw [List.cons_append, session]
      rw [session] at hrun
      cases hwords : interactiveMode env words s with
      | error fault' =>
          rw [hwords] at hrun
          exact hrun
      | ok result =>
          obtain ⟨more, t⟩ := result
          rw [hwords, Lib.ok_bind] at hrun
          rw [Lib.ok_bind]
          cases more with
          | false => cases hrun
          | true => exact ih (List.prefix_append pre rest) hrun

theorem onPrinter_of_long {s : State} {arg1 : Word} (h : fit (printerComplaints s arg1) = false)
    (f : Nat → Printer → Except Fault State) : onPrinter arg1 s f = .error .overflow := by
  rw [printerComplaints] at h
  cases hname : searchPrinter s.phead arg1 with
  | none =>
      rw [hname, Option.isNone_none, if_pos rfl] at h
      have hlong : ¬Line.fits (.note (printerNote arg1)) = true := by simpa [fit, Line.fits] using h
      rw [onPrinter, hname]
      exact (delivered_print (List.forall_mem_nil _) _ rfl).trans (if_neg hlong)
  | some p => simp [hname, fit] at h

theorem oneArgument_of_long {s : State} {args : List Word} {messages : Word → List Word}
    (h : fit (ofOne messages args) = false) (name : String) {f : Word → State → Except Fault State}
    (hf : ∀ arg1, fit (messages arg1) = false → f arg1 s = .error .overflow) :
    oneArgument name args s f = .error .overflow := by
  rcases args with _ | ⟨arg1, _ | ⟨arg2, rest⟩⟩
  · exact nomatch h
  · exact hf arg1 h
  · exact nomatch h

theorem declareConversion_of_long (env : Env) {s : State} {args : List Word}
    (h : fit (conversionComplaints s args) = false) :
    declareConversion env args s = .error .overflow := by
  rcases args with _ | ⟨arg1, _ | ⟨arg2, _ | ⟨arg3, rest⟩⟩⟩
  · exact nomatch h
  · exact nomatch h
  · exact nomatch h
  · rw [conversionComplaints] at h
    rw [declareConversion, addConv]
    by_cases hsame : arg1 = arg2
    · simp [if_pos hsame, fit] at h
    · simp only [if_neg hsame] at h ⊢
      have hnote {data : Word} (hlong : fit [fileTypeNote data] = false) :
          delivered s (s.print (.note (fileTypeNote data))) = .error .overflow := by
        have hfits : ¬Line.fits (.note (fileTypeNote data)) = true := by
          simpa [fit, Line.fits] using hlong
        exact (delivered_print (List.forall_mem_nil _) _ rfl).trans (if_neg hfits)
      cases hd1 : searchList s.list.head arg1 with
      | none =>
          rw [hd1, Option.isNone_none, if_pos rfl] at h
          exact congrArg (· >>= processAll env) (hnote h)
      | some d1 =>
          rw [hd1, Option.isNone_some, if_neg Bool.false_ne_true] at h
          cases hd2 : searchList s.list.head arg2 with
          | none =>
              rw [hd2, Option.isNone_none, if_pos rfl] at h
              exact congrArg (· >>= processAll env) (hnote h)
          | some d2 => simp [hd2, fit] at h

theorem printFile_of_long (env : Env) {s : State} (hs : Consistent s) {args : List Word}
    (h : fit (printComplaints s args) = false) : printFile env args s = .error .overflow := by
  rcases args with _ | ⟨arg1, names⟩
  · exact nomatch h
  · rw [printFile, (print_overflow_iff hs arg1 names).mpr h]
    rfl

-- A message that does not fit is printed before any search.
theorem interactiveMode_of_long (env : Env) {s : State} (hs : Consistent s) {words : List Word}
    (h : fit (complaints s words) = false) : interactiveMode env words s = .error .overflow := by
  rcases words with _ | ⟨token, args⟩
  · cases h
  have hcommand : token ≠ ascii "quit" ∧ command env token args s = .error .overflow := by
    rw [complaints] at h
    split at h
    · subst token
      exact ⟨by decide, declareConversion_of_long env h⟩
    split at h
    · subst token
      exact ⟨by decide, printFile_of_long env hs h⟩
    split at h
    · subst token
      exact ⟨by decide, oneArgument_of_long h _ fun arg1 hlong => onPrinter_of_long hlong _⟩
    split at h
    · subst token
      exact ⟨by decide, oneArgument_of_long h _ fun arg1 hlong => onPrinter_of_long hlong _⟩
    split at h
    · cases h
    · rename_i hconversion hprint hdisable henable hquiet
      simp only [quietCommands, List.contains_cons, List.contains_nil, Bool.or_false,
        Bool.or_eq_true, beq_iff_eq, not_or] at hquiet
      obtain ⟨hhelp, hquit, htype, hprinter, hprinters, hjobs, hcancel, hpause, hresume⟩ := hquiet
      have hlong : ¬Line.fits (.error (invalidNote token)) = true := by
        simpa [fit, Line.fits] using h
      refine ⟨hquit, ?_⟩
      rw [command, if_neg hhelp, if_neg htype, if_neg hprinter, if_neg hconversion,
        if_neg hprinters, if_neg hjobs, if_neg hprint, if_neg hcancel, if_neg hpause,
        if_neg hresume, if_neg hdisable, if_neg henable, tryHelp_invalidOpt]
      exact (delivered_print (by decide) _ rfl).trans (if_neg hlong)
  rw [interactiveMode, if_neg hcommand.1, hcommand.2]
  rfl

section

variable {env : Env} (horiginal : ∀ n, env.forkResult n ≠ .child)

include horiginal

theorem session_of_fits (commands : List (List Word)) {s : State} (hs : Consistent s)
    (hprompt : AtPrompt (env.within unlimited) s)
    (hfits : ∀ pre r, pre <+: commands → session (env.within unlimited) pre s = .ok r →
      ∀ call ∈ r.searches, Ready call.list ∧ Fits call) :
    session (env.within inArray) commands s ≠ .error .outOfBounds := by
  induction commands generalizing s with
  | nil =>
      intro h
      cases h
  | cons words commands ih =>
      by_cases hdeclares : declares s words = true ∧ ¬s.printerId < 31
      · have hmost := hs.limit
        have hlimit := interactiveMode_of_limit (env.within inArray) hdeclares.1 (by omega)
        rw [session, hlimit]
        intro h
        cases h
      · have hless (h : declares s words = true) : s.printerId < 31 := by
          by_contra hmost
          exact hdeclares ⟨h, hmost⟩
        have hbounds : ∀ i, (env.within unlimited).inBounds i = true := fun _ => rfl
        have hwords := interactiveMode_spec hbounds horiginal hs hprompt words hless
        cases hfit : fit (complaints s words) with
        | false =>
            rw [session, interactiveMode_of_long _ hs hfit]
            intro h
            cases h
        | true =>
        rw [if_pos hfit] at hwords
        obtain ⟨more, t, hrun, ht, hprompt', -⟩ := hwords
        have hone : session (env.within unlimited) [words] s = .ok t := by
          rw [session, hrun]
          cases more with
          | false => rfl
          | true => rfl
        have hgood := hfits [words] t (List.prefix_append [words] commands) hone
        rw [session, ((walk_inArray env).interactiveMode words more t hrun).2.1 hgood, Lib.ok_bind]
        cases more with
        | false =>
            intro h
            cases h
        | true =>
            refine ih ht hprompt' fun pre r hpre hr => ?_
            refine hfits (words :: pre) r (List.cons_prefix_cons.mpr ⟨rfl, hpre⟩) ?_
            rw [session, hrun]
            exact hr

end

-- The original process never leaves an array exactly when all calls of bfs fit.
theorem bounds_of_session (env : Env) (commands : List (List Word)) :
    (∀ s, session (env.within inArray) commands .start = .ok s ↔
        session (env.within unlimited) commands .start = .ok s ∧ ∀ call ∈ s.searches, Fits call) ∧
      ((∀ n, env.forkResult n ≠ .child) →
        (session (env.within inArray) commands .start ≠ .error .outOfBounds ↔
          ∀ pre s, pre <+: commands → session (env.within unlimited) pre .start = .ok s →
            ∀ call ∈ s.searches, Fits call)) := by
  refine ⟨session_iff env commands,
    fun horiginal => ⟨fun hbounds pre s hpre hrun => ?_, fun hfits => ?_⟩⟩
  · rcases ((walk_inArray env).session pre s hrun).2.2 with hsame | hleft
    · exact ((session_iff env pre s).mp hsame).2
    · exact absurd (session_before hpre hleft) hbounds
  · refine session_of_fits horiginal commands consistent_start (atPrompt_start _)
      fun pre s hpre hrun call hcall => ?_
    have hknown := ((walk_known env).session pre s hrun).1 known_start
    exact ⟨hknown.calls call hcall, hfits pre s hpre hrun call hcall⟩

-- A spooler that prints a type as it is, with the entries that result has.
structure Printing (entries : Nat) (s : State) : Prop where
  types : ∃ visited, s.list.head = [⟨ascii "txt", visited, []⟩]
  entries : s.list.result.length = entries
  phead : s.phead = [⟨0, ascii "laser", ascii "txt", true, false⟩]
  done : ∀ j ∈ s.jhead, j.status ≠ .queued

theorem processJobs_done {env : Env} {again : State → Except Fault State} {s : State}
    (h : ∀ j ∈ s.jhead, j.status ≠ .queued) (left cursor : Nat) :
    processJobs env again left cursor s = .ok s := by
  induction left generalizing cursor with
  | zero => rfl
  | succ left ih =>
      unfold processJobs
      split
      · rfl
      · rename_i job hjob
        rw [if_neg (h job (List.mem_of_getElem? hjob))]
        exact ih (cursor + 1)

-- The job behind the print command, and the state before process_print.
def newJob (s : State) : Job := ⟨s.jobId, .queued, ascii "a.txt", ascii "txt", 0xffffffff, none⟩

def withNewJob (s : State) : State :=
  { s with jhead := s.jhead ++ [newJob s], jobId := s.jobId + 1, out :=
    s.out ++ [.jobStatus (newJob s)] }

section

variable {env : Env} {entries : Nat} {s : State} (hs : Printing entries s)

include hs

theorem print_printing : print (ascii "a.txt") [] s = .ok (some s.jhead.length, withNewJob s) := by
  obtain ⟨visited, hhead⟩ := hs.types
  have hext : extension (ascii "a.txt") = some (ascii "txt") := by decide
  simp [print, hext, searchList, hhead, eligibleSet, addJob, printJobStatus, withNewJob, newJob,
    State.print]

-- The search for the type itself stores the type alone.
theorem findBfs_printing : findBfs (env.within inArray) (newJob s) (withNewJob s) =
    push inArray (ascii "txt") s.list.result >>= fun result =>
      .ok (some 0, { withNewJob s with
        list := { s.list with result }
        searches := s.searches ++ [⟨ascii "txt", ascii "txt", s.list⟩] }) := by
  have heligible : eligible (newJob s) 0 = true := by
    show decide ((0xffffffff : BitVec 32) &&& (1 <<< 0) ≠ 0) = true
    decide
  have hprinter : getPrinterById (withNewJob s).phead 0 = some 0 := by
    show getPrinterById s.phead 0 = some 0
    rw [hs.phead]
    rfl
  have hget : (withNewJob s).phead[0]? = some ⟨0, ascii "laser", ascii "txt", true, false⟩ := by
    show s.phead[0]? = _
    rw [hs.phead]
    rfl
  rw [findBfs, findBfsLoop, if_pos heligible, hprinter]
  simp only [hget, bfs, newJob, if_true, Bool.not_false, Bool.and_self]
  show (push inArray (ascii "txt") s.list.result >>= _) >>= _ = _
  unfold push
  split
  · simp only [Lib.ok_bind, ne_eq, not_false_iff, reduceCtorEq, if_true]
    rfl
  · rfl

-- The printer takes the job, and no other one is queued.
theorem forkConv_printing (horiginal : ∀ n, env.forkResult n ≠ .child)
    (again : State → Except Fault State) :
    ∃ s', forkConv (env.within inArray) again s.jhead.length 0 { withNewJob s with
        list := { s.list with result := ascii "txt" :: s.list.result }
        searches := s.searches ++ [⟨ascii "txt", ascii "txt", s.list⟩] } = again s' ∧
          Printing (entries + 1) s' := by
  obtain ⟨visited, hhead⟩ := hs.types
  generalize hu : ({ withNewJob s with
    list := { s.list with result := ascii "txt" :: s.list.result }
    searches := s.searches ++ [⟨ascii "txt", ascii "txt", s.list⟩] } : State) = u
  have hphead : u.phead = s.phead := by rw [← hu]; rfl
  have hjhead : u.jhead = s.jhead ++ [newJob s] := by rw [← hu]; rfl
  have hlist : u.list = { s.list with result := ascii "txt" :: s.list.result } := by rw [← hu]
  have hget : u.jhead[s.jhead.length]? = some (newJob s) := by
    rw [hjhead]
    exact List.getElem?_concat_length
  have hidle : ∀ p ∈ u.phead, p.busy = false := by
    rw [hphead, hs.phead]
    simp
  have hvalid : 0 < u.phead.length := by
    rw [hphead, hs.phead]
    exact Nat.zero_lt_one
  have hparent : ∀ n, (env.within inArray).forkResult n ≠ .child := horiginal
  obtain ⟨v, hconv, hvlist, hvphead, -, hvjhead⟩ := forkConv_spec hparent again hget hvalid hidle
  refine ⟨v, hconv, ⟨visited, ?_⟩, ?_, ?_, ?_⟩
  · rw [hvlist, hlist, hhead]
  · rw [hvlist, hlist, List.length_cons, hs.entries]
  · rw [hvphead, hphead, hs.phead]
  · rw [hvjhead, hjhead, List.set_append_right _ _ (Nat.le_refl _), Nat.sub_self]
    intro j hj
    rcases List.mem_append.mp hj with hj | hj
    · exact hs.done j hj
    · rw [List.mem_singleton.mp hj]
      exact fun h => nomatch h

-- Each file stores one more entry, the first one without a place ends the program.
theorem command_printing (horiginal : ∀ n, env.forkResult n ≠ .child) :
    (entries < arraySize → ∃ s', command (env.within inArray) (ascii "print") [ascii "a.txt"] s =
      .ok s' ∧
      Printing (entries + 1) s') ∧
    (entries = arraySize → command (env.within inArray) (ascii "print") [ascii "a.txt"] s =
      .error .outOfBounds) := by
  have hjob : (withNewJob s).jhead[s.jhead.length]? = some (newJob s) := List.getElem?_concat_length
  rw [command, if_neg (by decide), if_neg (by decide), if_neg (by decide), if_neg (by decide),
    if_neg (by decide), if_neg (by decide), if_pos rfl, printFile, print_printing hs, Lib.ok_bind]
  simp only [hjob, findBfs_printing hs]
  constructor
  · intro hless
    rw [push_eq_ok.mpr ⟨decide_eq_true (hs.entries ▸ hless), rfl⟩]
    simp only [Lib.ok_bind]
    obtain ⟨s', hconv, hs'⟩ := forkConv_printing hs horiginal
      (processPrint (env.within inArray) ((withNewJob s).jhead.length + 1))
    exact ⟨s', hconv.trans (processJobs_done hs'.done _ _), hs'⟩
  · intro hfull
    have hleft : push inArray (ascii "txt") s.list.result = .error .outOfBounds := by
      rw [push, hs.entries, hfull]
      rfl
    rw [hleft]
    rfl

end

-- Commands that print a file behind some entries, down to the last free place.
theorem session_printing {env : Env} (horiginal : ∀ n, env.forkResult n ≠ .child) (left : Nat)
    {entries : Nat} {s : State} (hs : Printing entries s) (hleft : entries + left = arraySize + 1)
    (hentries : entries ≤ arraySize) :
    session (env.within inArray) (List.replicate left [ascii "print", ascii "a.txt"]) s =
      .error .outOfBounds := by
  induction left generalizing entries s with
  | zero => omega
  | succ left ih =>
      obtain ⟨hplace, hfull⟩ := command_printing hs horiginal
      have hquit : ascii "print" ≠ ascii "quit" := by decide
      rw [List.replicate_succ, session, interactiveMode, if_neg hquit]
      by_cases hless : entries < arraySize
      · obtain ⟨s', hrun, hs'⟩ := hplace hless
        rw [hrun]
        exact ih hs' (by omega) (by omega)
      · rw [hfull (by omega)]
        rfl

theorem session_cons {env : Env} {words : List Word} {commands : List (List Word)} {s r : State}
    (h : interactiveMode env words s = .ok (true, r)) :
    session env (words :: commands) s = session env commands r := by
  rw [session, h]
  rfl

-- A hundred and twenty-nine files of the type that the printer prints.
theorem result_leaves_array :
    session ((unbounded fun _ => none).within inArray)
      ([[ascii "type", ascii "txt"], [ascii "printer", ascii "laser", ascii "txt"],
        [ascii "enable", ascii "laser"]] ++
        List.replicate 129 [ascii "print", ascii "a.txt"]) .start = .error .outOfBounds := by
  let laser (enabled : Bool) : Printer := ⟨0, ascii "laser", ascii "txt", enabled, false⟩
  let typed : State := { State.start with list := ⟨[⟨ascii "txt", false, []⟩], [], []⟩ }
  let declared : State :=
    { typed with phead := [laser false], printerId := 1, out := [.printerStatus (laser false)] }
  let enabled : State :=
    { declared with phead := [laser true], out :=
      [.printerStatus (laser false), .printerStatus (laser true)] }
  have htype : interactiveMode ((unbounded fun _ => none).within inArray) [ascii "type",
      ascii "txt"] .start =
      .ok (true, typed) := by decide +kernel
  have hprinter : interactiveMode ((unbounded fun _ => none).within inArray)
      [ascii "printer", ascii "laser", ascii "txt"] typed = .ok (true, declared) := by
        decide +kernel
  have henable : interactiveMode ((unbounded fun _ => none).within inArray) [ascii "enable",
      ascii "laser"] declared =
      .ok (true, enabled) := by decide +kernel
  have hprinting : Printing 0 enabled := ⟨⟨false, rfl⟩, rfl, rfl, fun j hj => nomatch hj⟩
  rw [List.cons_append, session_cons htype, List.cons_append, session_cons hprinter,
    List.cons_append, session_cons henable, List.nil_append]
  have horiginal (n : Nat) : (unbounded fun _ => none).forkResult n ≠ .child := fun h => nomatch h
  exact session_printing horiginal 129 hprinting rfl (Nat.zero_le _)

-- A spooler with a path from one type to another one.
theorem bounds_of_converted_job :
    let commands := [[ascii "type", ascii "txt"], [ascii "type", ascii "pdf"],
      [ascii "conversion", ascii "txt", ascii "pdf", ascii "convert"],
        [ascii "printer", ascii "laser", ascii "pdf"],
      [ascii "enable", ascii "laser"], [ascii "print", ascii "a.txt"]]
    (∀ n, (unbounded fun _ => none).forkResult n ≠ .child) ∧
      (session ((unbounded fun _ => none).within inArray) commands .start ≠ .error .outOfBounds ↔
        ∀ pre s, pre <+: commands →
          session ((unbounded fun _ => none).within unlimited) pre .start = .ok s →
          ∀ call ∈ s.searches, Fits call) ∧
      session ((unbounded fun _ => none).within inArray) commands .start ≠ .error .outOfBounds := by
  intro commands
  have horiginal (n : Nat) : (unbounded fun _ => none).forkResult n ≠ .child := fun h => nomatch h
  obtain ⟨-, hbounds⟩ := bounds_of_session (unbounded fun _ => none) commands
  exact ⟨horiginal, hbounds horiginal, by decide +kernel⟩

end CSE320.Spooler
