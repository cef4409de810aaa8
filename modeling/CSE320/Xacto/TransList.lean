import CSE320.Lib.Ring
import CSE320.Xacto.References

namespace CSE320.Xacto

open Function (update)

-- What trans_show prints of a transaction.
def shown (t : Transaction) : BitVec 32 × TransStatus × BitVec 32 := (t.id, t.status, t.refcnt)

-- The loop of trans_show_all, from a given transaction on. A loop that has used
-- up its rounds is taken not to end.
def showFrom (m : Manager) : Nat → Ptr → Except Stop (List (BitVec 32 × TransStatus × BitVec 32))
  | 0, _ => .error .blocked
  | rounds + 1, p =>
    if p = transList then
      .ok []
    else do
      let t ← m.get p
      let rest ← showFrom m rounds t.next
      return shown t :: rest

def transShowAll (m : Manager) (rounds : Nat) :
    Except Stop (List (BitVec 32 × TransStatus × BitVec 32)) := do
  let head ← m.get transList
  showFrom m rounds head.next

def nextOf (m : Manager) (p : Ptr) : Ptr := ((m.trans p).map (·.next)).getD p

def prevOf (m : Manager) (p : Ptr) : Ptr := ((m.trans p).map (·.prev)).getD p

-- The list of all transactions: the links are inverse to each other around the
-- sentinel, and the members stand in the order of their creation.
structure TransListIs (m : Manager) (members : Ptr → Prop) (xs : List Ptr) : Prop where
  ring : Lib.Ring (nextOf m) (prevOf m) transList xs
  members : ∀ p, p ∈ xs ↔ p ≠ transList ∧ members p
  order : xs.Pairwise (· < ·)
  ids : xs.Pairwise fun p q => ∀ t u, m.trans p = some t → m.trans q = some u → t.id < u.id
  shows : ∀ rounds, xs.length < rounds →
    transShowAll m rounds = .ok (xs.filterMap fun p => (m.trans p).map shown)

-- The calls are made on transactions, never on the sentinel.
def OnCreated (_ : World) : Call → Prop
  | .ref tp | .unref tp | .versionCreate tp _ => tp ≠ some transList
  | .commit tp | .abort tp => tp ≠ transList
  | .addDependency tp dtp => tp ≠ some transList ∧ dtp ≠ some transList
  | _ => True

-- No count is at its largest value when it is increased.
def NotFull (w : World) (call : Call) : Prop :=
  ∀ p t, takes w.manager call = some p → w.manager.trans p = some t → t.refcnt.toNat + 1 < 2 ^ 32

-- The calls that make a new transaction.
def creates : Call → Bool
  | .create | .versionCreate none _ => true
  | _ => false

-- The list after n creations. The counts are known to be positive as long as the
-- condition holds.
structure Chained (full : Prop) (n : Nat) (m : Manager) (xs : List Ptr) : Prop where
  ring : Lib.Ring (nextOf m) (prevOf m) transList xs
  members : ∀ p, p ∈ xs ↔ p ≠ transList ∧ (view m p).isSome
  order : xs.Pairwise (· < ·)
  sentinel : (view m transList).isSome
  fresh : m.fresh = n + 1
  uniqueId : m.uniqueId = BitVec.ofNat 32 n
  bounded : ∀ p ∈ xs, p ≤ n
  ids : ∀ p c, p ≠ transList → view m p = some c → c.id = BitVec.ofNat 32 (p - 1)
  positive : full → ∀ p c, p ≠ transList → view m p = some c → 0 < c.refcnt

variable {full : Prop} {n : Nat} {m after : Manager} {xs : List Ptr} {p : Ptr}
  {t t' c : Transaction}

theorem nextOf_set (m : Manager) (p : Ptr) (t : Transaction) :
    nextOf (m.set p t) = update (nextOf m) p t.next := by
  funext q
  by_cases hq : q = p
  · subst q
    simp [nextOf]
  · simp [nextOf, Manager.set_trans_of_ne _ _ hq, hq]

theorem prevOf_set (m : Manager) (p : Ptr) (t : Transaction) :
    prevOf (m.set p t) = update (prevOf m) p t.prev := by
  funext q
  by_cases hq : q = p
  · subst q
    simp [prevOf]
  · simp [prevOf, Manager.set_trans_of_ne _ _ hq, hq]

theorem nextOf_of_trans (h : m.trans p = some t) : nextOf m p = t.next := by
  simp [nextOf, h]

theorem prevOf_of_trans (h : m.trans p = some t) : prevOf m p = t.prev := by
  simp [prevOf, h]

-- A change of one link leaves the other one as it is.
theorem modify_next {q : Ptr} (h : m.modify p (fun t => { t with next := q }) = .ok after) :
    nextOf after = update (nextOf m) p q ∧ prevOf after = prevOf m ∧
      after.uniqueId = m.uniqueId := by
  obtain ⟨t, ht, rfl⟩ := Manager.modify_ok h
  refine ⟨nextOf_set _ _ _, ?_, rfl⟩
  rw [prevOf_set]
  exact (congrArg _ (prevOf_of_trans ht).symm).trans (Function.update_eq_self _ _)

theorem modify_prev {q : Ptr} (h : m.modify p (fun t => { t with prev := q }) = .ok after) :
    prevOf after = update (prevOf m) p q ∧ nextOf after = nextOf m ∧
      after.uniqueId = m.uniqueId := by
  obtain ⟨t, ht, rfl⟩ := Manager.modify_ok h
  refine ⟨prevOf_set _ _ _, ?_, rfl⟩
  rw [nextOf_set]
  exact (congrArg _ (nextOf_of_trans ht).symm).trans (Function.update_eq_self _ _)

theorem transCreate_links (hcall : transCreate m = .ok (p, after)) :
    nextOf after = update (update (nextOf m) m.fresh transList) (prevOf m transList) m.fresh ∧
      prevOf after = update (update (prevOf m) m.fresh (prevOf m transList)) transList m.fresh ∧
      after.uniqueId = m.uniqueId + 1 := by
  unfold transCreate at hcall
  obtain ⟨last, hlast, hcall⟩ := Lib.bind_ok hcall
  obtain ⟨m₁, h₁, hcall⟩ := Lib.bind_ok hcall
  obtain ⟨m₂, h₂, hcall⟩ := Lib.bind_ok hcall
  obtain ⟨m₃, h₃, hcall⟩ := Lib.bind_ok hcall
  obtain ⟨rfl, rfl⟩ := Prod.mk.inj (Except.ok.inj hcall)
  obtain ⟨t₁, ht₁, rfl⟩ := Manager.modify_ok h₁
  rw [Manager.set_trans_self] at ht₁
  obtain rfl := Option.some.inj ht₁
  have hprev : prevOf m transList = last.prev := prevOf_of_trans (Manager.get_ok.mp hlast)
  obtain ⟨hn₂, hp₂, hu₂⟩ := modify_next h₂
  obtain ⟨hp₃, hn₃, hu₃⟩ := modify_prev h₃
  refine ⟨?_, ?_, by rw [hu₃, hu₂]; rfl⟩
  · rw [hn₃, hn₂, nextOf_set, nextOf_set, Function.update_idem, hprev]
    rfl
  · rw [hp₃, hp₂, prevOf_set, prevOf_set, Function.update_idem, hprev]
    rfl

-- The two neighbours are linked to each other.
theorem unlinkFree_links (hcall : unlinkFree (m.set p t) p t = .ok after) :
    (∀ u, u ≠ p → nextOf after u = update (nextOf m) t.prev t.next u) ∧
      (∀ u, u ≠ p → prevOf after u = update (prevOf m) t.next t.prev u) ∧
      after.uniqueId = m.uniqueId := by
  obtain ⟨m₁, h₁, hcall⟩ := Lib.bind_ok hcall
  obtain ⟨m₂, h₂, hcall⟩ := Lib.bind_ok hcall
  obtain rfl := Except.ok.inj hcall
  obtain ⟨hp₁, hn₁, hu₁⟩ := modify_prev h₁
  obtain ⟨hn₂, hp₂, hu₂⟩ := modify_next h₂
  refine ⟨fun u hu => ?_, fun u hu => ?_, by rw [Manager.free, hu₂, hu₁]; rfl⟩
  · have hfree : nextOf (m₂.free p) u = nextOf m₂ u := by
      rw [nextOf, nextOf, Manager.free_trans_of_ne _ hu]
    rw [hfree, hn₂, hn₁, nextOf_set]
    by_cases huq : u = t.prev
    · rw [huq, Function.update_self, Function.update_self]
    · rw [Function.update_of_ne huq, Function.update_of_ne hu, Function.update_of_ne huq]
  · have hfree : prevOf (m₂.free p) u = prevOf m₂ u := by
      rw [prevOf, prevOf, Manager.free_trans_of_ne _ hu]
    rw [hfree, hp₂, hp₁, prevOf_set]
    by_cases huc : u = t.next
    · rw [huc, Function.update_self, Function.update_self]
    · rw [Function.update_of_ne huc, Function.update_of_ne hu, Function.update_of_ne huc]

namespace Chained

theorem nodup (h : Chained full n m xs) : (transList :: xs).Nodup := by
  refine List.nodup_cons.mpr ⟨fun hmem => ?_, h.order.imp fun hlt => Nat.ne_of_lt hlt⟩
  exact ((h.members transList).mp hmem).1 rfl

-- A transaction changes, but neither its links nor its id.
theorem set (h : Chained full n m xs) (ht : m.trans p = some t) (hnext : t'.next = t.next)
    (hprev : t'.prev = t.prev) (hid : t'.id = t.id)
    (hcount : full → p ≠ transList → 0 < t'.refcnt) :
    Chained full n (m.set p t') xs := by
  have hview := view_set m p t'
  have hold : view m p = some (core t) := view_of_trans ht
  have hn : nextOf (m.set p t') = nextOf m := by
    rw [nextOf_set, hnext, ← nextOf_of_trans ht, Function.update_eq_self]
  have hp : prevOf (m.set p t') = prevOf m := by
    rw [prevOf_set, hprev, ← prevOf_of_trans ht, Function.update_eq_self]
  have hsome (q : Ptr) : (view (m.set p t') q).isSome = (view m q).isSome := by
    by_cases hq : q = p
    · subst q
      simp [hold]
    · rw [hview, Function.update_of_ne hq]
  refine ⟨by rw [hn, hp]; exact h.ring, fun q => by rw [hsome]; exact h.members q, h.order,
    by rw [hsome]; exact h.sentinel, h.fresh, h.uniqueId, h.bounded, fun q c hq hc => ?_,
    fun hfull q c hq hc => ?_⟩ <;> rw [hview] at hc <;> by_cases hqp : q = p
  · subst q
    rw [Function.update_self] at hc
    rw [← Option.some.inj hc]
    exact hid.trans (h.ids p (core t) hq hold)
  · rw [Function.update_of_ne hqp] at hc
    exact h.ids q c hq hc
  · subst q
    rw [Function.update_self] at hc
    rw [← Option.some.inj hc]
    exact hcount hfull hq
  · rw [Function.update_of_ne hqp] at hc
    exact h.positive hfull q c hq hc

-- A change that keeps the count too.
theorem edit (h : Chained full n m xs) (ht : m.trans p = some t) (hnext : t'.next = t.next)
    (hprev : t'.prev = t.prev) (hid : t'.id = t.id) (hcount : t'.refcnt = t.refcnt) :
    Chained full n (m.set p t') xs := by
  refine h.set ht hnext hprev hid fun hfull hp => ?_
  rw [hcount]
  exact h.positive hfull p (core t) hp (view_of_trans ht)

theorem transRef {tp : Option Ptr} (h : Chained full n m xs)
    (hroom : full → ∀ p t, tp = some p → m.trans p = some t → t.refcnt.toNat + 1 < 2 ^ 32)
    (hcall : transRef m tp = .ok after) : Chained full n after xs := by
  cases tp with
  | none =>
      cases hcall
      exact h
  | some p =>
      obtain ⟨t, ht, rfl⟩ := Manager.modify_ok hcall
      refine h.set ht rfl rfl rfl fun hfull _ => ?_
      have hsum := toNat_add_one (hroom hfull p t rfl ht)
      rw [BitVec.lt_def]
      show 0 < (t.refcnt + 1).toNat
      omega

-- A new transaction goes to the end of the list.
theorem transCreate (h : Chained full n m xs) (hcall : transCreate m = .ok (p, after)) :
    Chained full (n + 1) after (xs ++ [n + 1]) ∧ p = n + 1 ∧
      ∃ t, after.trans (n + 1) = some t ∧ t.refcnt = 1 := by
  obtain ⟨hp, hfresh, hview⟩ := transCreate_ok hcall
  rw [h.fresh] at hp hfresh hview
  have hlinks := transCreate_links hcall
  rw [h.fresh] at hlinks
  obtain ⟨hnext, hprev, hunique⟩ := hlinks
  have hnew : ∀ u ∈ transList :: xs, u ≠ n + 1 := by
    intro u hu
    rcases List.mem_cons.mp hu with rfl | hu
    · exact Nat.ne_of_lt (Nat.succ_pos n)
    · exact Nat.ne_of_lt (Nat.lt_succ_of_le (h.bounded u hu))
  obtain ⟨front, q, hq⟩ := Lib.cut_before transList xs
  have hlast : prevOf m transList = q := h.ring.prev_head hq
  have hqmem : q ∈ transList :: xs := by
    rw [hq]
    exact List.mem_append_right _ (List.mem_singleton_self q)
  rw [hlast] at hnext hprev
  have hring : Lib.Ring (nextOf after) (prevOf after) transList (xs ++ [n + 1]) := by
    have hold : Lib.Ring (nextOf m) (prevOf m) transList (xs ++ []) := by simpa using h.ring
    refine hold.insert (by simpa using h.nodup) hq rfl ?_ ?_ ⟨?_, ?_⟩ ⟨?_, ?_⟩
    · intro u hu hne
      rw [hnext, Function.update_of_ne hne, Function.update_of_ne (hnew u (by simpa using hu))]
    · intro u hu hne
      rw [hprev, Function.update_of_ne hne, Function.update_of_ne (hnew u (by simpa using hu))]
    · rw [hnext, Function.update_self]
    · rw [hprev, Function.update_of_ne (hnew _ List.mem_cons_self).symm, Function.update_self]
    · rw [hnext, Function.update_of_ne (hnew q hqmem).symm, Function.update_self]
    · rw [hprev, Function.update_self]
  have hself : view after (n + 1) = some
      { id := m.uniqueId, refcnt := 1, status := .pending, depends := [],
        waitcnt := 0, sem := 0, next := transList, prev := transList } := by
    rw [hview, Function.update_self]
  have hother (u : Ptr) (hu : u ≠ n + 1) : view after u = view m u := by
    rw [hview, Function.update_of_ne hu]
  refine ⟨⟨hring, fun u => ?_, ?_, ?_, hfresh, ?_, fun u hu => ?_, fun u c hu hc => ?_,
    fun hfull u c hu hc => ?_⟩, hp, ?_⟩
  · rw [List.mem_append, List.mem_singleton]
    by_cases hu : u = n + 1
    · rw [hu, hself]
      exact iff_of_true (Or.inr rfl) ⟨Nat.succ_ne_zero n, rfl⟩
    · rw [hother u hu, or_iff_left hu]
      exact h.members u
  · refine List.pairwise_append.mpr ⟨h.order, List.pairwise_singleton _ _, fun u hu v hv => ?_⟩
    rw [List.mem_singleton.mp hv]
    exact Nat.lt_succ_of_le (h.bounded u hu)
  · rw [hother transList (hnew _ List.mem_cons_self)]
    exact h.sentinel
  · rw [hunique, h.uniqueId]
    exact (BitVec.ofNat_add n 1).symm
  · rcases List.mem_append.mp hu with hu | hu
    · exact Nat.le_succ_of_le (h.bounded u hu)
    · rw [List.mem_singleton.mp hu]
  · by_cases hu' : u = n + 1
    · rw [hu', hself] at hc
      rw [← Option.some.inj hc, hu']
      exact h.uniqueId
    · rw [hother u hu'] at hc
      exact h.ids u c hu hc
  · by_cases hu' : u = n + 1
    · rw [hu', hself] at hc
      rw [← Option.some.inj hc]
      exact (by decide : (0 : BitVec 32) < 1)
    · rw [hother u hu'] at hc
      exact h.positive hfull u c hu hc
  · obtain ⟨t, ht, hcore⟩ := trans_of_view hself
    exact ⟨t, ht, congrArg Transaction.refcnt hcore⟩

-- The last reference goes: the transaction leaves the list.
theorem unlinkFree (h : Chained full n m xs) (ht : m.trans p = some t) (hp : p ≠ transList)
    (hnext : t'.next = t.next) (hprev : t'.prev = t.prev)
    (hcall : unlinkFree (m.set p t') p t' = .ok after) : ∃ xs', Chained full n after xs' := by
  obtain ⟨hfresh, hview⟩ := unlinkFree_ok hcall
  rw [view_set, Function.update_idem] at hview
  have hmem : p ∈ xs := (h.members p).mpr ⟨hp, by rw [view_of_trans ht]; rfl⟩
  obtain ⟨first, second, rfl⟩ := List.append_of_mem hmem
  have hnodup := h.nodup
  obtain ⟨front, q, hq⟩ := Lib.cut_before transList first
  obtain ⟨c, back, hc⟩ := Lib.cut_behind transList second
  obtain ⟨-, hqp, hpc, -⟩ := h.ring.around hq hc
  have hpprev : t'.prev = q := by rw [hprev, ← prevOf_of_trans ht, hqp.2]
  have hpnext : t'.next = c := by rw [hnext, ← nextOf_of_trans ht, hpc.1]
  have hsub : List.Sublist (transList :: (first ++ second)) (transList :: (first ++ p :: second)) :=
    ((List.sublist_cons_self p second).append_left first).cons_cons transList
  have hother : ∀ u ∈ transList :: (first ++ second), u ≠ p := by
    rintro u hu rfl
    have hperm : (transList :: (first ++ u :: second)).Perm (u :: transList :: (first ++ second)) :=
      (List.perm_middle.cons transList).trans (.swap _ _ _)
    exact (List.nodup_cons.mp (hperm.nodup_iff.mp hnodup)).1 hu
  obtain ⟨hn, hpv, hunique⟩ := unlinkFree_links hcall
  rw [hpprev, hpnext] at hn hpv
  have hqmem : q ∈ transList :: (first ++ second) := by
    rw [← List.cons_append, hq]
    simp
  have hcmem : c ∈ transList :: (first ++ second) := by
    have hc' : c ∈ second ++ [transList] := by
      rw [hc]
      exact List.mem_cons_self
    simp only [List.mem_append, List.mem_singleton] at hc'
    simp only [List.mem_cons, List.mem_append]
    tauto
  have hring : Lib.Ring (nextOf after) (prevOf after) transList (first ++ second) := by
    refine h.ring.remove hnodup hq hc ?_ ?_ ⟨?_, ?_⟩
    · intro u hu hne
      rw [hn u (hother u hu), Function.update_of_ne hne]
    · intro u hu hne
      rw [hpv u (hother u hu), Function.update_of_ne hne]
    · rw [hn q (hother q hqmem), Function.update_self]
    · rw [hpv c (hother c hcmem), Function.update_self]
  refine ⟨first ++ second, hring, fun u => ?_,
    h.order.sublist ((List.sublist_cons_self p second).append_left first), ?_, hfresh.trans h.fresh,
    hunique.trans h.uniqueId, fun u hu => h.bounded u ?_, fun u c hu hc => ?_,
    fun hfull u c hu hc => ?_⟩
  · by_cases hu : u = p
    · refine iff_of_false (fun hmem => hother u (List.mem_cons_of_mem _ hmem) hu) ?_
      rw [hview, hu, Function.update_self]
      simp
    · rw [hview, Function.update_of_ne hu, ← h.members u]
      simp [hu]
  · rw [hview, Function.update_of_ne hp.symm]
    exact h.sentinel
  · simp only [List.mem_append, List.mem_cons] at hu ⊢
    tauto
  · by_cases hup : u = p
    · rw [hview, hup, Function.update_self] at hc
      cases hc
    · rw [hview, Function.update_of_ne hup] at hc
      exact h.ids u c hu hc
  · by_cases hup : u = p
    · rw [hview, hup, Function.update_self] at hc
      cases hc
    · rw [hview, Function.update_of_ne hup] at hc
      exact h.positive hfull u c hu hc

theorem transUnref {tp : Option Ptr} (h : Chained full n m xs) (htp : tp ≠ some transList)
    (hcall : transUnref m tp = .ok after) : ∃ xs', Chained full n after xs' := by
  cases tp with
  | none =>
      cases hcall
      exact ⟨xs, h⟩
  | some p =>
      have hp : p ≠ transList := fun hp => htp (congrArg some hp)
      unfold Xacto.transUnref at hcall
      obtain ⟨t, ht, hcall⟩ := Lib.bind_ok hcall
      have ht := Manager.get_ok.mp ht
      by_cases hzero : t.refcnt - 1 = 0
      · simp only [hzero, if_true] at hcall
        refine h.unlinkFree ht hp ?_ ?_ hcall
        · rfl
        · rfl
      · simp only [hzero, if_false] at hcall
        obtain rfl := Except.ok.inj hcall
        refine ⟨xs, h.set ht rfl rfl rfl fun _ _ => ?_⟩
        show 0 < t.refcnt - 1
        bv_omega

theorem postWaiters (h : Chained full n m xs) (hcall : postWaiters m p = .ok after) :
    Chained full n after xs := by
  obtain ⟨t, ht, rfl⟩ := Manager.modify_ok hcall
  exact h.edit ht rfl rfl rfl rfl

theorem transAbort {st : TransStatus} (h : Chained full n m xs) (hp : p ≠ transList)
    (hcall : transAbort m p = .ok (st, after)) : ∃ xs', Chained full n after xs' := by
  have hp' : some p ≠ some transList := fun he => hp (Option.some.inj he)
  unfold Xacto.transAbort at hcall
  obtain ⟨t, ht, hcall⟩ := Lib.bind_ok hcall
  have ht := Manager.get_ok.mp ht
  cases hs : t.status with
  | committed =>
      simp only [hs] at hcall
      obtain ⟨_, _, hcall⟩ := Lib.bind_ok hcall
      cases hcall
  | pending =>
      simp only [hs] at hcall
      obtain ⟨m₁, h₁, hcall⟩ := Lib.bind_ok hcall
      obtain ⟨m₂, h₂, hcall⟩ := Lib.bind_ok hcall
      obtain ⟨-, rfl⟩ := Prod.mk.inj (Except.ok.inj hcall)
      have hset : Chained full n (m.set p { t with status := .aborted }) xs :=
        h.edit ht rfl rfl rfl rfl
      exact (hset.postWaiters h₁).transUnref hp' h₂
  | aborted =>
      simp only [hs] at hcall
      obtain ⟨m₁, h₁, hcall⟩ := Lib.bind_ok hcall
      obtain ⟨m₂, h₂, hcall⟩ := Lib.bind_ok hcall
      obtain ⟨-, rfl⟩ := Prod.mk.inj (Except.ok.inj hcall)
      exact (h.postWaiters h₁).transUnref hp' h₂

theorem waitDependencies {ds : List Ptr} (h : Chained full n m xs)
    (hcall : waitDependencies m ds = .ok after) : Chained full n after xs := by
  induction ds generalizing m with
  | nil =>
      cases hcall
      exact h
  | cons d ds ih =>
      unfold Xacto.waitDependencies at hcall
      obtain ⟨t, ht, hcall⟩ := Lib.bind_ok hcall
      have ht := Manager.get_ok.mp ht
      cases hs : t.status with
      | pending =>
          simp only [hs] at hcall
          split at hcall
          · cases hcall
          · refine ih (h.edit ht ?_ ?_ ?_ ?_) hcall
            · rfl
            · rfl
            · rfl
            · rfl
      | committed =>
          simp only [hs] at hcall
          exact ih h hcall
      | aborted =>
          simp only [hs] at hcall
          exact ih h hcall

theorem transCommit {st : TransStatus} (h : Chained full n m xs) (hp : p ≠ transList)
    (hcall : transCommit m p = .ok (st, after)) : ∃ xs', Chained full n after xs' := by
  have hp' : some p ≠ some transList := fun he => hp (Option.some.inj he)
  unfold Xacto.transCommit at hcall
  obtain ⟨t, -, hcall⟩ := Lib.bind_ok hcall
  obtain ⟨m₁, h₁, hrest⟩ := Lib.bind_ok hcall
  have hwait := h.waitDependencies h₁
  obtain ⟨b, -, hcall⟩ := Lib.bind_ok hrest
  cases b with
  | true => exact hwait.transAbort hp hcall
  | false =>
      simp only [Bool.false_eq_true, if_false] at hcall
      obtain ⟨m₂, h₂, hcall⟩ := Lib.bind_ok hcall
      obtain ⟨m₃, h₃, hcall⟩ := Lib.bind_ok hcall
      obtain ⟨m₄, h₄, hcall⟩ := Lib.bind_ok hcall
      obtain ⟨-, rfl⟩ := Prod.mk.inj (Except.ok.inj hcall)
      have hpost := hwait.postWaiters h₂
      obtain ⟨t₃, ht₃, rfl⟩ := Manager.modify_ok h₃
      have hset : Chained full n (m₂.set p { t₃ with status := .committed }) xs :=
        hpost.edit ht₃ rfl rfl rfl rfl
      exact hset.transUnref hp' h₄

theorem transAddDependency {tp dtp : Option Ptr} (h : Chained full n m xs)
    (hroom : full → ∀ p t, takes m (.addDependency tp dtp) = some p → m.trans p = some t →
      t.refcnt.toNat + 1 < 2 ^ 32)
    (hcall : transAddDependency m tp dtp = .ok after) : Chained full n after xs := by
  match tp, dtp with
  | none, _ =>
      cases hcall
      exact h
  | some tp, none =>
      cases hcall
      exact h
  | some tp, some dtp =>
      unfold Xacto.transAddDependency at hcall
      obtain ⟨t, ht, hcall⟩ := Lib.bind_ok hcall
      obtain ⟨d, hd, hcall⟩ := Lib.bind_ok hcall
      obtain ⟨result, hresult, hcall⟩ := Lib.bind_ok hcall
      have ht := Manager.get_ok.mp ht
      have hd := Manager.get_ok.mp hd
      cases result with
      | none =>
          obtain rfl := Except.ok.inj hcall
          exact h
      | some depends =>
          have htakes : takes m (.addDependency (some tp) (some dtp)) = some dtp := by
            simp only [takes, ht, hd, hresult]
          by_cases he : dtp = tp
          · simp [he] at hcall
          · simp only [he, if_false] at hcall
            have hset : Chained full n (m.set tp { t with depends }) xs := h.edit ht rfl rfl rfl rfl
            refine hset.transRef (fun hfull p u hp hu => ?_) hcall
            obtain rfl := Option.some.inj hp
            rw [Manager.set_trans_of_ne _ _ he] at hu
            exact hroom hfull dtp u htakes hu

theorem transInit : Chained full 0 transInit [] := by
  have hview (p : Ptr) (c : Transaction) (hc : view Xacto.transInit p = some c) :
      p = transList := by
    obtain ⟨t, ht, rfl⟩ := trans_of_view hc
    simp only [Xacto.transInit] at ht
    split at ht
    · assumption
    · cases ht
  refine ⟨?_, fun p => ?_, List.Pairwise.nil, rfl, rfl, rfl, List.forall_mem_nil _,
    fun p c hp hc => ?_, fun _ p c hp hc => ?_⟩
  · exact .cons_cons ⟨rfl, rfl⟩ (.singleton _)
  · apply iff_of_false List.not_mem_nil
    rintro ⟨hp, hsome⟩
    obtain ⟨c, hc⟩ := Option.isSome_iff_exists.mp hsome
    exact hp (hview p c hc)
  · exact absurd (hview p c hc) hp
  · exact absurd (hview p c hc) hp

end Chained

-- The list between the calls. Versions name created transactions.
structure Listing (full : Prop) (n : Nat) (w : World) : Prop where
  chained : ∃ xs, Chained full n w.manager xs
  creators : ∀ v ∈ w.versions, v.2.creator ≠ transList

theorem exec_listing {w after : World} {call : Call} (h : Listing full n w) (hon : OnCreated w call)
    (hroom : full → NotFull w call) (hcall : w.exec call = .ok after) :
    Listing full (n + (creates call).toNat) after := by
  obtain ⟨⟨xs, hx⟩, hcreators⟩ := h
  cases call with
  | create =>
      obtain ⟨⟨p, manager⟩, hstep, hcall⟩ := Lib.bind_ok hcall
      cases hcall
      exact ⟨⟨_, (hx.transCreate hstep).1⟩, hcreators⟩
  | ref tp =>
      obtain ⟨manager, hstep, hcall⟩ := Lib.bind_ok hcall
      cases hcall
      exact ⟨⟨_, hx.transRef hroom hstep⟩, hcreators⟩
  | unref tp =>
      obtain ⟨manager, hstep, hcall⟩ := Lib.bind_ok hcall
      cases hcall
      exact ⟨hx.transUnref hon hstep, hcreators⟩
  | addDependency tp dtp =>
      obtain ⟨manager, hstep, hcall⟩ := Lib.bind_ok hcall
      cases hcall
      exact ⟨⟨_, hx.transAddDependency hroom hstep⟩, hcreators⟩
  | commit tp =>
      obtain ⟨⟨st, manager⟩, hstep, hcall⟩ := Lib.bind_ok hcall
      cases hcall
      exact ⟨hx.transCommit hon hstep, hcreators⟩
  | abort tp =>
      obtain ⟨⟨st, manager⟩, hstep, hcall⟩ := Lib.bind_ok hcall
      cases hcall
      exact ⟨hx.transAbort hon hstep, hcreators⟩
  | blobCreate content size =>
      cases hcall
      exact ⟨⟨xs, hx⟩, hcreators⟩
  | versionCreate tp bp =>
      obtain ⟨⟨vp, w'⟩, hversion, hcall⟩ := Lib.bind_ok hcall
      cases hcall
      unfold versionCreate at hversion
      obtain ⟨⟨p, m₁⟩, h₁, hrest⟩ := Lib.bind_ok hversion
      obtain ⟨m₂, h₂, hrest⟩ := Lib.bind_ok hrest
      cases hrest
      -- the version goes in front of the others
      have hversions (hp : p ≠ transList) :
          ∀ v ∈ (w.freshVersion, (⟨p, bp⟩ : Version)) :: w.versions, v.2.creator ≠ transList := by
        intro v hv
        rcases List.mem_cons.mp hv with rfl | hv
        · exact hp
        · exact hcreators v hv
      cases tp with
      | some tp =>
          cases h₁
          exact ⟨⟨_, hx.transRef hroom h₂⟩, hversions fun hp => hon (congrArg some hp)⟩
      | none =>
          obtain ⟨hx₁, rfl, t, ht, hone⟩ := hx.transCreate h₁
          refine ⟨⟨_, hx₁.transRef (fun _ q u hq hu => ?_) h₂⟩, hversions (Nat.succ_ne_zero n)⟩
          obtain rfl := Option.some.inj hq
          obtain rfl := Option.some.inj (ht.symm.trans hu)
          rw [hone]
          decide
  | versionDispose vp =>
      cases vp with
      | none =>
          cases hcall
          exact ⟨⟨xs, hx⟩, hcreators⟩
      | some vp =>
          simp only [World.exec, versionDispose] at hcall
          split at hcall
          · cases hcall
          · rename_i version hlookup
            obtain ⟨manager, hstep, hcall⟩ := Lib.bind_ok hcall
            obtain ⟨w', hw', hcall⟩ := Lib.bind_ok hcall
            cases hcall
            obtain ⟨hmanager, hversions⟩ := blobUnref_manager hw'
            have hcreator : version.creator ≠ transList := by
              obtain ⟨front, back, hsplit, -⟩ := List.lookup_eq_some_iff.mp hlookup
              refine hcreators (vp, version) ?_
              rw [hsplit]
              exact List.mem_append_right _ List.mem_cons_self
            refine ⟨?_, fun v hv => hcreators v ?_⟩
            · rw [hmanager]
              exact hx.transUnref (fun he => hcreator (Option.some.inj he)) hstep
            · rw [hversions] at hv
              exact List.mem_of_mem_eraseP hv

-- The loop visits what is left of the list.
theorem showFrom_chain {ys : List Ptr} {rounds : Nat}
    (hchain : List.IsChain (Lib.Linked (nextOf m) (prevOf m)) (ys ++ [transList]))
    (hlive : ∀ p ∈ ys, p ≠ transList ∧ (view m p).isSome) (hrounds : ys.length < rounds) {p : Ptr}
    (hp : (ys ++ [transList]).head? = some p) :
    showFrom m rounds p = .ok (ys.filterMap fun q => (m.trans q).map shown) := by
  induction ys generalizing rounds p with
  | nil =>
      obtain rfl := Option.some.inj hp
      cases rounds with
      | zero => cases hrounds
      | succ rounds => simp [showFrom]
  | cons y ys ih =>
      obtain rfl := Option.some.inj hp
      cases rounds with
      | zero => cases hrounds
      | succ rounds =>
          obtain ⟨hne, hsome⟩ := hlive y List.mem_cons_self
          obtain ⟨c, hc⟩ := Option.isSome_iff_exists.mp hsome
          obtain ⟨t, ht, -⟩ := trans_of_view hc
          obtain ⟨d, back, hd⟩ := Lib.cut_behind transList ys
          rw [List.cons_append, hd] at hchain
          obtain ⟨hlink, hrest⟩ := List.isChain_cons_cons.mp hchain
          have hnext : t.next = d := (nextOf_of_trans ht).symm.trans hlink.1
          have hrec := ih (hd ▸ hrest) (fun q hq => hlive q (List.mem_cons_of_mem _ hq))
            (Nat.lt_of_succ_lt_succ hrounds) (show (ys ++ [transList]).head? =
              some t.next by rw [hd, hnext]; rfl)
          rw [showFrom, if_neg hne, Manager.get_of_trans ht, Lib.ok_bind, hrec]
          simp [ht]

theorem Chained.shows (h : Chained full n m xs) {rounds : Nat} (hrounds : xs.length < rounds) :
    transShowAll m rounds = .ok (xs.filterMap fun p => (m.trans p).map shown) := by
  obtain ⟨c, hc⟩ := Option.isSome_iff_exists.mp h.sentinel
  obtain ⟨t, ht, -⟩ := trans_of_view hc
  obtain ⟨d, back, hd⟩ := Lib.cut_behind transList xs
  have hnext : t.next = d := (nextOf_of_trans ht).symm.trans (h.ring.next_head hd)
  have hchain : List.IsChain (Lib.Linked (nextOf m) (prevOf m)) (xs ++ [transList]) := by
    have hring := h.ring
    unfold Lib.Ring at hring
    rw [hd] at hring ⊢
    exact (List.isChain_cons_cons.mp hring).2
  rw [transShowAll, Manager.get_of_trans ht, Lib.ok_bind]
  exact showFrom_chain hchain (fun p hp => (h.members p).mp hp) hrounds (by rw [hd, hnext]; rfl)

-- The members are the transactions that have not been freed.
theorem Chained.transListIs (h : Chained full n m xs) (hn : n < 2 ^ 32) :
    TransListIs m (fun p => (m.trans p).isSome) xs := by
  have hview (p : Ptr) : (view m p).isSome = (m.trans p).isSome := by
    rw [view, Option.isSome_map]
  refine ⟨h.ring, fun p => ?_, h.order, ?_, fun rounds hrounds => h.shows hrounds⟩
  · rw [h.members, hview]
  · refine h.order.imp_of_mem fun {p q} hp hq hlt t u ht hu => ?_
    have hpid := h.ids p (core t) ((h.members p).mp hp).1 (view_of_trans ht)
    have hqid := h.ids q (core u) ((h.members q).mp hq).1 (view_of_trans hu)
    have hqn := h.bounded q hq
    have hpos : 0 < p := Nat.pos_of_ne_zero ((h.members p).mp hp).1
    have hstrict {a b : Nat} (ha : 0 < a) (hab : a < b) (hb : b ≤ n) :
        (a - 1) % 2 ^ 32 < (b - 1) % 2 ^ 32 := by omega
    rw [show t.id = _ from hpid, show u.id = _ from hqid, BitVec.lt_def, BitVec.toNat_ofNat,
      BitVec.toNat_ofNat]
    exact hstrict hpos hlt hqn

theorem run_listing {w after : World} {calls : List Call} {guard : World → Call → Prop}
    (hon : ∀ w call, guard w call → OnCreated w call)
    (hroom : full → ∀ w call, guard w call → NotFull w call)
    (hrun : Lib.Steps World.exec guard w calls after) (h : Listing full n w) :
    Listing full (n + calls.countP creates) after := by
  induction hrun generalizing n with
  | nil => exact h
  | @cons w next after call rest hguard hstep _ ih =>
      have hnext := exec_listing h (hon w call hguard)
        (fun hfull => hroom hfull w call hguard) hstep
      have hcount : n + (call :: rest).countP creates =
          n + (creates call).toNat + rest.countP creates := by
        rw [List.countP_cons]
        cases creates call
        · simp
        · simp only [if_true, Bool.toNat_true]
          omega
      rw [hcount]
      exact ih hnext

theorem listing_start : Listing full 0 .start := ⟨⟨[], .transInit⟩, nofun⟩

-- In every run of calls with fewer than 2 ^ 32 creations the list holds the
-- transactions that have not been freed. As long as no count overflows these are
-- the ones with a positive count.
theorem transList_of_run {calls : List Call} {w : World}
    (hrun : Lib.Steps World.exec OnCreated .start calls w)
    (hcreated : calls.countP creates < 2 ^ 32) :
    ∃ xs, TransListIs w.manager (fun p => (w.manager.trans p).isSome) xs ∧
      (Lib.Steps World.exec (fun w call => OnCreated w call ∧ NotFull w call) .start calls w →
        TransListIs w.manager (fun p => ∃ t, w.manager.trans p = some t ∧ 0 < t.refcnt) xs) := by
  have hlisting : Listing False (0 + calls.countP creates) w :=
    run_listing (fun _ _ h => h) (fun hfalse => hfalse.elim) hrun listing_start
  obtain ⟨xs, hx⟩ := hlisting.chained
  have hlist := hx.transListIs (by omega)
  refine ⟨xs, hlist, fun hroomy => ⟨hlist.ring, fun p => ?_, hlist.order, hlist.ids, hlist.shows⟩⟩
  have hfull : Listing True (0 + calls.countP creates) w :=
    run_listing (fun _ _ h => h.1) (fun _ _ _ h => h.2) hroomy listing_start
  obtain ⟨ys, hy⟩ := hfull.chained
  rw [hlist.members p]
  refine and_congr_right fun hp => ⟨fun hsome => ?_, fun ⟨t, ht, _⟩ => by rw [ht]; rfl⟩
  obtain ⟨t, ht⟩ := Option.isSome_iff_exists.mp hsome
  exact ⟨t, ht, hy.positive trivial p (core t) hp (view_of_trans ht)⟩

theorem notFull_of_takes_none {w : World} {call : Call} (h : takes w.manager call = none) :
    NotFull w call := by
  intro p t hp
  rw [h] at hp
  cases hp

-- Three transactions, of which the one in the middle is committed and thereby
-- freed.
theorem transList_of_three : ∃ w xs, Lib.Steps World.exec OnCreated .start
      [.create, .create, .versionCreate none none, .ref (some 1), .commit 2] w ∧
    TransListIs w.manager (fun p => (w.manager.trans p).isSome) xs ∧
    TransListIs w.manager (fun p => ∃ t, w.manager.trans p = some t ∧ 0 < t.refcnt) xs := by
  have hsteps : ∃ w, Lib.Steps World.exec (fun w call => OnCreated w call ∧ NotFull w call) .start
      [.create, .create, .versionCreate none none, .ref (some 1), .commit 2] w := by
    refine ⟨_, .cons ⟨trivial, notFull_of_takes_none rfl⟩ rfl <|
      .cons ⟨trivial, notFull_of_takes_none rfl⟩ rfl <|
      .cons ⟨nofun, notFull_of_takes_none rfl⟩ rfl <|
      .cons ⟨by simp [OnCreated, transList], fun p t hp ht => ?_⟩ rfl <|
      .cons ⟨by simp [OnCreated, transList], notFull_of_takes_none rfl⟩ rfl <| .nil _⟩
    cases hp
    cases ht
    decide
  obtain ⟨w, hrun⟩ := hsteps
  have hon := hrun.weaken fun _ _ h => h.1
  obtain ⟨xs, hxs, hpositive⟩ := transList_of_run hon (by decide)
  exact ⟨w, xs, hon, hxs, hpositive hrun⟩

-- Every reference adds one to the count, modulo 2 ^ 32.
theorem refcnt_of_refs (k : Nat) : ∃ w t, Lib.Steps World.exec OnCreated .start
      (.create :: List.replicate k (.ref (some 1))) w ∧
    w.manager.trans 1 = some t ∧ t.refcnt = BitVec.ofNat 32 (k + 1) := by
  induction k with
  | zero => exact ⟨_, _, .cons trivial rfl (.nil _), rfl, rfl⟩
  | succ k ih =>
      obtain ⟨w, t, hrun, ht, hcount⟩ := ih
      have hstep : w.exec (.ref (some 1)) =
          .ok { w with manager := w.manager.set 1 { t with refcnt := t.refcnt + 1 } } := by
        rw [World.exec, transRef, Manager.modify_of_trans _ ht]
        rfl
      rw [List.replicate_succ', ← List.cons_append]
      refine ⟨_, _, hrun.append (.cons (by simp [OnCreated, transList]) hstep (.nil _)),
        Manager.set_trans_self _ _ _, ?_⟩
      show t.refcnt + 1 = _
      rw [hcount]
      exact (BitVec.ofNat_add (k + 1) 1).symm

-- One transaction whose count has been increased until it is zero again.
theorem not_positive_of_overflow :
    (Call.create :: List.replicate (2 ^ 32 - 1) (.ref (some 1))).countP creates < 2 ^ 32 ∧
    ∃ w, Lib.Steps World.exec OnCreated .start
      (.create :: List.replicate (2 ^ 32 - 1) (.ref (some 1))) w ∧
      ¬∃ xs, TransListIs w.manager (fun p => ∃ t, w.manager.trans p = some t ∧
        0 < t.refcnt) xs := by
  have hcount : (Call.create :: List.replicate (2 ^ 32 - 1) (.ref (some 1))).countP creates <
      2 ^ 32 := by
    rw [List.countP_cons, List.countP_replicate]
    decide
  obtain ⟨w, t, hrun, ht, hzero⟩ := refcnt_of_refs (2 ^ 32 - 1)
  refine ⟨hcount, w, hrun, ?_⟩
  rintro ⟨xs, hxs⟩
  have hlisting : Listing False _ w :=
    run_listing (fun _ _ h => h) (fun hfalse => hfalse.elim) hrun listing_start
  obtain ⟨ys, hy⟩ := hlisting.chained
  have hhead : transList ∉ xs := fun hmem => ((hxs.members transList).mp hmem).1 rfl
  have hsame : xs = ys := Lib.chain_unique hxs.ring hy.ring hhead (List.nodup_cons.mp hy.nodup).1
  have hmem : 1 ∈ xs := by
    rw [hsame, hy.members, view_of_trans ht]
    exact ⟨Nat.one_ne_zero, rfl⟩
  obtain ⟨-, u, hu, hpos⟩ := (hxs.members 1).mp hmem
  obtain rfl := Option.some.inj (ht.symm.trans hu)
  rw [hzero] at hpos
  exact absurd hpos (by decide)

end CSE320.Xacto
