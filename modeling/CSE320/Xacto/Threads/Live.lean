import CSE320.Xacto.Threads.Commit
import CSE320.Xacto.TransList

namespace CSE320.Xacto.Threads

open Function (update)

-- The owner is inside trans_commit or trans_abort.
def Inside : Pc → Prop
  | .adding | .done _ => False
  | _ => True

-- The reference that the owner has not given back.
def own : Pc → Nat
  | .freeing _ | .done _ => 0
  | _ => 1

-- The dependencies that the loops of the owner are going to look at.
def ahead : Pc → List Ptr
  | .waiting rest | .scanning rest => rest
  | .register d rest | .acquire d rest => d :: rest
  | _ => []

def dependsOf (m : Manager) (p : Ptr) : List Ptr := ((view m p).map Transaction.depends).getD []

-- The calls are made on created transactions, and no count overflows.
def Counting (s : Threads) : Action → Prop
  | .addDependency tp dtp =>
      tp ≠ transList ∧ dtp ≠ transList ∧
        ∀ t, s.manager.trans dtp = some t → t.refcnt.toNat + 1 < 2 ^ 32
  | .commit tp | .abort tp => tp ≠ transList
  | _ => True

instance decidableCounting (s : Threads) (a : Action) : Decidable (s.Counting a) :=
  match a with
  | .create | .advance _ => .isTrue trivial
  | .addDependency tp dtp => inferInstanceAs (Decidable (tp ≠ transList ∧ dtp ≠ transList ∧
      ∀ t ∈ s.manager.trans dtp, t.refcnt.toNat + 1 < 2 ^ 32))
  | .commit tp | .abort tp => inferInstanceAs (Decidable (tp ≠ transList))

def Legal (s : Threads) (a : Action) : Prop := s.Owned a ∧ s.Counting a

instance decidableLegal (s : Threads) (a : Action) : Decidable (s.Legal a) :=
  inferInstanceAs (Decidable (s.Owned a ∧ s.Counting a))

-- A thread that looks at a transaction has it in its own dependency set, and what a set
-- names is paid for by the count.
structure Held (s : Threads) : Prop where
  safe : Safe s
  chained : ∃ n xs, Chained False n s.manager xs
  idle : s.pc transList = .adding
  present : ∀ p, p ≠ transList → p < s.manager.fresh → (∀ v, s.pc p ≠ .done v) →
    (view s.manager p).isSome
  counted : ∀ d c, d ≠ transList → view s.manager d = some c →
    own (s.pc d) + entriesNaming s.manager d ≤ c.refcnt.toNat
  named : ∀ p, ∀ d ∈ dependsOf s.manager p, d ≠ transList ∧ (view s.manager d).isSome
  looked : ∀ p, ∀ d ∈ ahead (s.pc p), d ∈ dependsOf s.manager p

-- What one step of the thread that owns tp does to the structures, with their links.
inductive Effect (s : Threads) (tp : Ptr) : Pc → Pc → Manager → Prop
  | read {pc next} (hown : own next = own pc)
      (hahead : ∀ d ∈ ahead next, d ∈ ahead pc ∨ d ∈ dependsOf s.manager tp) :
      Effect s tp pc next s.manager
  | write {pc next q t} (status : TransStatus) (waitcnt sem : Nat)
      (ht : s.manager.trans q = some t) (hown : own next = own pc)
      (hahead : ∀ d ∈ ahead next, d ∈ ahead pc) :
      Effect s tp pc next (s.manager.set q { t with status, waitcnt, sem })
  | release {v t} (ht : s.manager.trans tp = some t) :
      Effect s tp (.releasing v) (.freeing v)
        (s.manager.set tp { t with refcnt := t.refcnt - 1 })
  | free {v t m} (ht : s.manager.trans tp = some t) (hzero : t.refcnt = 0)
      (hfree : unlinkFree s.manager tp t = .ok m) : Effect s tp (.freeing v) (.done v) m

section

variable {s after : Threads} {tp p q d : Ptr} {t : Transaction} {m : Manager} {pc next : Pc}

theorem inside_of_advance (h : s.advance tp = .ok after) : Inside (s.pc tp) := by
  unfold advance at h
  cases hpc : s.pc tp with
  | adding => simp [hpc] at h
  | done v => simp [hpc] at h
  | _ => trivial

theorem Advances.effect (h : Advances s tp pc next m) : Effect s tp pc next m := by
  cases h with
  | @endWait t ht =>
      refine .read rfl fun d hd => Or.inr ?_
      rw [dependsOf, view_of_trans ht]
      exact hd
  | seePending => exact .read rfl fun e he => Or.inl he
  | @seeFinal d => exact .read rfl fun e he => Or.inl (List.mem_cons_of_mem d he)
  | register ht => exact .write _ _ _ ht rfl fun e he => he
  | @acquire d _ _ ht => exact .write _ _ _ ht rfl fun e he => List.mem_cons_of_mem d he
  | endScan => exact .read rfl (List.forall_mem_nil _)
  | seeAborted => exact .read rfl (List.forall_mem_nil _)
  | @seeOther d => exact .read rfl fun e he => Or.inl (List.mem_cons_of_mem d he)
  | storeAborted ht => exact .write _ _ _ ht rfl (List.forall_mem_nil _)
  | post ht => exact .write _ _ _ ht rfl (List.forall_mem_nil _)
  | storeCommitted ht => exact .write _ _ _ ht rfl (List.forall_mem_nil _)
  | release ht => exact .release ht
  | free ht hzero hfree => exact .free ht hzero hfree
  | _ => exact .read rfl (List.forall_mem_nil _)

theorem dependsOf_of_view {c : Transaction} (h : view m p = some c) :
    dependsOf m p = c.depends := by
  rw [dependsOf, h]
  rfl

theorem dependsOf_of_none (h : view m p = none) : dependsOf m p = [] := by
  rw [dependsOf, h]
  rfl

theorem entryCount_eq (m : Manager) (p q : Ptr) :
    entryCount p (view m q) = (dependsOf m q).count p := by
  rw [dependsOf]
  cases view m q <;> rfl

-- The entries are those of the dependency sets, however far the numbers go.
theorem entriesNaming_of_dependsOf {m' : Manager} (hfresh : m.fresh ≤ m'.fresh)
    (hdepends : ∀ p, dependsOf m' p = dependsOf m p)
    (hunborn : ∀ p, m.fresh ≤ p → dependsOf m p = []) :
    entriesNaming m' d = entriesNaming m d := by
  simp only [entriesNaming_eq, entryCount_eq, hdepends]
  apply (Finset.sum_subset (Finset.range_subset_range.mpr hfresh) fun p _ hp => ?_).symm
  rw [hunborn p (by simpa using hp)]
  rfl

theorem entriesNaming_pos_of_mem (hp : p < m.fresh) (hd : d ∈ dependsOf m p) :
    0 < entriesNaming m d := by
  rw [entriesNaming_eq]
  refine Nat.pos_of_ne_zero fun hzero => ?_
  have hnone := Finset.sum_eq_zero_iff.mp hzero p (Finset.mem_range.mpr hp)
  rw [entryCount_eq] at hnone
  exact Nat.ne_of_gt (List.count_pos_iff.mpr hd) hnone

namespace Held

theorem unborn (h : Held s) (hp : s.manager.fresh ≤ p) : dependsOf s.manager p = [] :=
  dependsOf_of_none (h.safe.unborn p hp).1

-- The owner of tp goes on, and no dependency set changes. What the count of a
-- transaction loses, its owner has given back.
theorem of_move (h : Held s) (hsafe : Safe after) (hpc : after.pc = update s.pc tp next)
    (htp : tp ≠ transList) (hdone : ∀ v, s.pc tp ≠ .done v)
    (hfresh : after.manager.fresh = s.manager.fresh)
    (hchained : ∃ n xs, Chained False n after.manager xs)
    (hsome : ∀ p, (view after.manager p).isSome = (view s.manager p).isSome)
    (hdepends : ∀ p, dependsOf after.manager p = dependsOf s.manager p)
    (hcount : ∀ d e, d ≠ transList → view after.manager d = some e →
      ∃ c, view s.manager d = some c ∧
        (d ≠ tp → c.refcnt = e.refcnt) ∧
        (d = tp → own (s.pc d) + entriesNaming s.manager d ≤ c.refcnt.toNat →
          own next + entriesNaming s.manager d ≤ e.refcnt.toNat))
    (hahead : ∀ d ∈ ahead next, d ∈ ahead (s.pc tp) ∨ d ∈ dependsOf s.manager tp) :
    Held after := by
  have hself : after.pc tp = next := by rw [hpc, Function.update_self]
  have hother {p : Ptr} (hp : p ≠ tp) : after.pc p = s.pc p := by
    rw [hpc, Function.update_of_ne hp]
  refine ⟨hsafe, hchained, ?_, fun p hp hlt hne => ?_, fun d e hd he => ?_, fun p d hd => ?_,
    fun p d hd => ?_⟩
  · rw [hother (Ne.symm htp)]
    exact h.idle
  · rw [hsome]
    rw [hfresh] at hlt
    by_cases hpt : p = tp
    · subst p
      exact h.present tp hp hlt hdone
    · exact h.present p hp hlt fun v hv => hne v (by rw [hother hpt, hv])
  · obtain ⟨c, hc, hsame, hmine⟩ := hcount d e hd he
    have hold := h.counted d c hd hc
    rw [entriesNaming_of_dependsOf (Nat.le_of_eq hfresh.symm) hdepends fun p hp => h.unborn hp]
    by_cases hdt : d = tp
    · subst d
      rw [hself]
      exact hmine rfl hold
    · rw [hother hdt, ← hsame hdt]
      exact hold
  · rw [hdepends] at hd
    rw [hsome]
    exact h.named p d hd
  · rw [hdepends]
    by_cases hpt : p = tp
    · subst p
      rw [hself] at hd
      exact (hahead d hd).elim (h.looked tp d) id
    · rw [hother hpt] at hd
      exact h.looked p d hd

-- Nothing changes but where the owner of tp is.
theorem of_read (h : Held s) (hsafe : Safe after) (hpc : after.pc = update s.pc tp next)
    (hmanager : after.manager = s.manager) (htp : tp ≠ transList)
    (hdone : ∀ v, s.pc tp ≠ .done v) (hown : own next = own (s.pc tp))
    (hahead : ∀ d ∈ ahead next, d ∈ ahead (s.pc tp) ∨ d ∈ dependsOf s.manager tp) :
    Held after := by
  refine h.of_move hsafe hpc htp hdone (by rw [hmanager]) ?_ (fun p => by rw [hmanager])
    (fun p => by rw [hmanager]) (fun d e _ he => ?_) hahead
  · rw [hmanager]
    exact h.chained
  · rw [hmanager] at he
    refine ⟨e, he, fun _ => rfl, fun hd hle => ?_⟩
    rw [hown, ← hd]
    exact hle

-- One transaction is replaced, and its links, its id and its dependencies stay.
theorem of_write (h : Held s) (hsafe : Safe after) (hpc : after.pc = update s.pc tp next)
    {t' : Transaction} (ht : s.manager.trans q = some t)
    (hmanager : after.manager = s.manager.set q t') (htp : tp ≠ transList)
    (hdone : ∀ v, s.pc tp ≠ .done v)
    (hsame : t'.next = t.next ∧ t'.prev = t.prev ∧ t'.id = t.id ∧ t'.depends = t.depends)
    (hother : q ≠ tp → t'.refcnt = t.refcnt)
    (hself : ∀ c, view s.manager tp = some c →
      ∀ n, own (s.pc tp) + n ≤ c.refcnt.toNat →
        own next + n ≤ (if q = tp then t' else c).refcnt.toNat)
    (hahead : ∀ d ∈ ahead next, d ∈ ahead (s.pc tp) ∨ d ∈ dependsOf s.manager tp) :
    Held after := by
  have hview : view after.manager = update (view s.manager) q (some (core t')) := by
    rw [hmanager, view_set]
  have hq := view_of_trans ht
  apply h.of_move hsafe hpc htp hdone
  · rw [hmanager]
    rfl
  · obtain ⟨n, xs, hx⟩ := h.chained
    rw [hmanager]
    exact ⟨n, xs, hx.set ht hsame.1 hsame.2.1 hsame.2.2.1 fun hfull => hfull.elim⟩
  · intro p
    rw [hview]
    by_cases hp : p = q
    · subst p
      rw [Function.update_self, hq]
      rfl
    · rw [Function.update_of_ne hp]
  · intro p
    by_cases hp : p = q
    · subst p
      rw [dependsOf_of_view hq, dependsOf_of_view (by rw [hview, Function.update_self])]
      exact hsame.2.2.2
    · rw [dependsOf, dependsOf, hview, Function.update_of_ne hp]
  · intro d e _ he
    rw [hview] at he
    by_cases hd : d = q
    · subst d
      rw [Function.update_self] at he
      obtain rfl := Option.some.inj he
      refine ⟨core t, hq, fun hne => (hother hne).symm, fun hdt hle => ?_⟩
      subst tp
      have hleft := hself (core t) hq _ hle
      rw [if_pos rfl] at hleft
      exact hleft
    · rw [Function.update_of_ne hd] at he
      refine ⟨e, he, fun _ => rfl, fun hdt hle => ?_⟩
      subst tp
      have hleft := hself e he _ hle
      rw [if_neg (Ne.symm hd)] at hleft
      exact hleft
  · exact hahead

-- The last reference is gone, so no dependency set names tp when it is freed.
theorem of_free (h : Held s) (hsafe : Safe after) {v : Verdict}
    (hpc : after.pc = update s.pc tp (.done v)) (htp : tp ≠ transList)
    (ht : s.manager.trans tp = some t) (hzero : t.refcnt = 0)
    (hfree : unlinkFree s.manager tp t = .ok after.manager) : Held after := by
  obtain ⟨hfresh, hview⟩ := unlinkFree_ok hfree
  have hc := view_of_trans ht
  have hself : after.pc tp = .done v := by rw [hpc, Function.update_self]
  have hother {p : Ptr} (hp : p ≠ tp) : after.pc p = s.pc p := by
    rw [hpc, Function.update_of_ne hp]
  have hkeep {p : Ptr} (hp : p ≠ tp) : view after.manager p = view s.manager p := by
    rw [hview, Function.update_of_ne hp]
  have hgone : dependsOf after.manager tp = [] :=
    dependsOf_of_none (by rw [hview, Function.update_self])
  have hsub {p d : Ptr} (hd : d ∈ dependsOf after.manager p) :
      p ≠ tp ∧ d ∈ dependsOf s.manager p := by
    by_cases hp : p = tp
    · rw [hp, hgone] at hd
      exact absurd hd List.not_mem_nil
    · refine ⟨hp, ?_⟩
      rw [dependsOf, hkeep hp] at hd
      exact hd
  -- an entry that names tp would be paid for by its count
  have hunnamed {p : Ptr} (hd : tp ∈ dependsOf s.manager p) : False := by
    have hlt : p < s.manager.fresh := by
      by_contra hle
      rw [h.unborn (Nat.not_lt.mp hle)] at hd
      exact absurd hd List.not_mem_nil
    have hpos := entriesNaming_pos_of_mem hlt hd
    have hpaid := h.counted tp _ htp hc
    have hcore : (core t).refcnt.toNat = 0 := by
      rw [show (core t).refcnt = t.refcnt from rfl, hzero]
      rfl
    omega
  refine ⟨hsafe, ?_, ?_, fun p hp hlt hne => ?_, fun d e hd he => ?_, fun p d hd => ?_,
    fun p d hd => ?_⟩
  · obtain ⟨n, xs, hx⟩ := h.chained
    have hset : s.manager.set tp t = s.manager := by
      unfold Manager.set
      congr 1
      funext p
      split
      · subst p
        exact ht.symm
      · rfl
    exact ⟨n, hx.unlinkFree ht htp rfl rfl (hset.symm ▸ hfree)⟩
  · rw [hother (Ne.symm htp)]
    exact h.idle
  · by_cases hpt : p = tp
    · subst p
      exact absurd hself (hne v)
    · rw [hkeep hpt]
      rw [hfresh] at hlt
      exact h.present p hp hlt fun w hw => hne w (by rw [hother hpt, hw])
  · have hdt : d ≠ tp := by
      rintro rfl
      rw [hview, Function.update_self] at he
      cases he
    have hold := h.counted d e hd (by rw [← hkeep hdt, he])
    have hless := entriesNaming_update hfresh (h.safe.bounded hc) hview d
    rw [entryCount_none] at hless
    rw [hother hdt]
    omega
  · obtain ⟨-, hd⟩ := hsub hd
    obtain ⟨hne, hlive⟩ := h.named p d hd
    have hdt : d ≠ tp := by
      rintro rfl
      exact hunnamed hd
    rw [hkeep hdt]
    exact ⟨hne, hlive⟩
  · have hpt : p ≠ tp := by
      rintro rfl
      rw [hself] at hd
      exact absurd hd List.not_mem_nil
    rw [hother hpt] at hd
    rw [dependsOf, hkeep hpt]
    exact h.looked p d hd

end Held

theorem advance_held (h : Held s) (hstep : s.advance tp = .ok after) : Held after := by
  have hsafe := advance_safe h.safe hstep
  have hinside := inside_of_advance hstep
  have htp : tp ≠ transList := by
    rintro rfl
    rw [h.idle] at hinside
    exact hinside
  have hdone (v : Verdict) : s.pc tp ≠ .done v := by
    intro hv
    rw [hv] at hinside
    exact hinside
  obtain ⟨next, hpc, hadvances⟩ := advances_of_advance hstep
  have heffect := hadvances.effect
  generalize hp : s.pc tp = pc at heffect
  generalize hm : after.manager = m at heffect
  cases heffect with
  | read hown hahead =>
      apply h.of_read hsafe hpc hm htp hdone
      · rw [hown, hp]
      · rw [hp]
        exact hahead
  | @write _ _ q t status waitcnt sem ht hown hahead =>
      apply h.of_write hsafe hpc ht hm htp hdone ⟨rfl, rfl, rfl, rfl⟩ fun _ => rfl
      · intro c hc n hle
        rw [hown, ← hp]
        split
        · subst q
          rw [view_of_trans ht] at hc
          rw [← Option.some.inj hc] at hle
          exact hle
        · exact hle
      · rw [hp]
        exact fun d hd => Or.inl (hahead d hd)
  | @release v t ht =>
      refine h.of_write hsafe hpc ht hm htp hdone ⟨rfl, rfl, rfl, rfl⟩ (fun hne => absurd rfl hne)
        (fun c hc n hle => ?_) (List.forall_mem_nil _)
      rw [view_of_trans ht] at hc
      rw [← Option.some.inj hc, hp] at hle
      simp only [own, core] at hle
      rw [if_pos rfl]
      simp only [own]
      bv_omega
  | @free v t _ ht hzero hfree =>
      rw [← hm] at hfree
      exact h.of_free hsafe hpc htp ht hzero hfree

theorem create_held (h : Held s) (hcall : transCreate s.manager = .ok (p, m)) :
    Held { s with manager := m } := by
  have hsafe : Safe { s with manager := m } := by
    refine step_safe h.safe (a := .create) trivial ?_
    simp [step, hcall]
  obtain ⟨rfl, hfresh, hview⟩ := transCreate_ok hcall
  obtain ⟨n, xs, hx⟩ := h.chained
  have hold {q : Ptr} (hq : q ≠ s.manager.fresh) : view m q = view s.manager q := by
    rw [hview, Function.update_of_ne hq]
  have hunborn := (h.safe.unborn s.manager.fresh (Nat.le_refl _)).1
  have hdepends (q : Ptr) : dependsOf m q = dependsOf s.manager q := by
    by_cases hq : q = s.manager.fresh
    · rw [hq, dependsOf_of_none hunborn, dependsOf_of_view (by rw [hview, Function.update_self])]
    · rw [dependsOf, dependsOf, hold hq]
  have hnaming (d : Ptr) : entriesNaming m d = entriesNaming s.manager d :=
    entriesNaming_of_dependsOf (hfresh ▸ Nat.le_succ _) hdepends fun q hq => h.unborn hq
  refine ⟨hsafe, ⟨_, _, (hx.transCreate hcall).1⟩, h.idle, fun q hq hlt hne => ?_,
    fun d c hd hc => ?_, fun q d hd => ?_, fun q d hd => ?_⟩
  · by_cases hqf : q = s.manager.fresh
    · rw [hqf, hview, Function.update_self]
      rfl
    · rw [hold hqf]
      have hlt : q < s.manager.fresh + 1 := hfresh ▸ hlt
      exact h.present q hq (Nat.lt_of_le_of_ne (Nat.le_of_lt_succ hlt) hqf) hne
  · rw [hnaming]
    by_cases hdf : d = s.manager.fresh
    · subst d
      rw [hview, Function.update_self] at hc
      obtain rfl := Option.some.inj hc
      have hnobody : entriesNaming s.manager s.manager.fresh = 0 := by
        rw [entriesNaming_eq]
        apply Finset.sum_eq_zero
        intro q _
        rw [entryCount_eq]
        by_contra hne
        have hlive := (h.named q _ (List.count_pos_iff.mp (Nat.pos_of_ne_zero hne))).2
        rw [hunborn] at hlive
        cases hlive
      rw [hnobody, (h.safe.unborn _ (Nat.le_refl _)).2]
      exact Nat.le_refl 1
    · rw [hold hdf] at hc
      exact h.counted d c hd hc
  · rw [hdepends] at hd
    obtain ⟨hne, hlive⟩ := h.named q d hd
    refine ⟨hne, ?_⟩
    by_cases hdf : d = s.manager.fresh
    · rw [hdf, hunborn] at hlive
      cases hlive
    · rw [hold hdf]
      exact hlive
  · rw [hdepends]
    exact h.looked q d hd

-- The reference taken on the new entry pays for it.
theorem addDependency_held (h : Held s) (howned : s.pc p = .adding)
    (hcounting : s.Counting (.addDependency p d))
    (hcall : transAddDependency s.manager (some p) (some d) = .ok m) :
    Held { s with manager := m } := by
  obtain ⟨hp, hd, hroom⟩ := hcounting
  have hsafe : Safe { s with manager := m } := by
    refine step_safe h.safe (a := .addDependency p d) howned ?_
    simp [step, hcall]
  obtain ⟨n, xs, hx⟩ := h.chained
  have hchained : ∃ n xs, Chained False n m xs :=
    ⟨n, xs, hx.transAddDependency (fun hfull => hfull.elim) hcall⟩
  obtain ⟨hfresh, hview | ⟨c, e, hc, he, hne, hview⟩⟩ := transAddDependency_ok hcall
  · have hdepends (q : Ptr) : dependsOf m q = dependsOf s.manager q := by
      rw [dependsOf, dependsOf, hview]
    refine ⟨hsafe, hchained, h.idle, fun q hq hlt => ?_, fun f c hf hc => ?_, fun q f hf => ?_,
      fun q f hf => ?_⟩
    · rw [hview]
      exact h.present q hq (hfresh ▸ hlt)
    · rw [entriesNaming_congr hfresh hview]
      exact h.counted f c hf (hview ▸ hc)
    · rw [hview]
      exact h.named q f (hdepends q ▸ hf)
    · rw [hdepends]
      exact h.looked q f hf
  · have hlive (q : Ptr) : (view m q).isSome = (view s.manager q).isSome := by
      rw [hview]
      by_cases hqd : q = d
      · subst q
        rw [Function.update_self, he]
        rfl
      · rw [Function.update_of_ne hqd]
        by_cases hqp : q = p
        · subst q
          rw [Function.update_self, hc]
          rfl
        · rw [Function.update_of_ne hqp]
    have hdepends (q : Ptr) : dependsOf m q =
        dependsOf s.manager q ++ if q = p then [d] else [] := by
      by_cases hqp : q = p
      · subst q
        have hafter : view m p = some { c with depends := c.depends ++ [d] } := by
          rw [hview, Function.update_of_ne (Ne.symm hne), Function.update_self]
        rw [if_pos rfl, dependsOf_of_view hc, dependsOf_of_view hafter]
      · rw [if_neg hqp, List.append_nil]
        by_cases hqd : q = d
        · subst q
          rw [dependsOf_of_view he, dependsOf_of_view (by rw [hview, Function.update_self])]
        · rw [dependsOf, dependsOf, hview, Function.update_of_ne hqd, Function.update_of_ne hqp]
    have hnaming (f : Ptr) : entriesNaming m f =
        entriesNaming s.manager f + if f = d then 1 else 0 := by
      have hchange := Lib.sum_range_change (fun q => (dependsOf m q).count f)
        (fun q => (dependsOf s.manager q).count f) (h.safe.bounded hc)
        (fun q hq => by rw [hdepends, if_neg hq, List.append_nil])
      simp only [entriesNaming_eq, entryCount_eq, hfresh]
      simp only [hdepends p, if_pos, List.count_append, List.count_singleton] at hchange
      by_cases hfd : f = d
      · subst f
        simp only [beq_self_eq_true, if_true] at hchange ⊢
        omega
      · simp only [beq_iff_eq, Ne.symm hfd, hfd, if_false] at hchange ⊢
        omega
    refine ⟨hsafe, hchained, h.idle, fun q hq hlt hdone => ?_, fun f g hf hg => ?_,
      fun q f hf => ?_, fun q f hf => ?_⟩
    · rw [hlive]
      exact h.present q hq (hfresh ▸ hlt) hdone
    · rw [hnaming]
      rw [hview] at hg
      by_cases hfd : f = d
      · subst f
        rw [Function.update_self] at hg
        obtain rfl := Option.some.inj hg
        obtain ⟨t, ht, rfl⟩ := trans_of_view he
        have hsum := toNat_add_one (hroom t ht)
        have hold := h.counted d _ hd he
        rw [if_pos rfl]
        show _ ≤ (t.refcnt + 1).toNat
        rw [hsum]
        exact Nat.succ_le_succ hold
      · rw [Function.update_of_ne hfd] at hg
        rw [if_neg hfd]
        by_cases hfp : f = p
        · subst f
          rw [Function.update_self] at hg
          obtain rfl := Option.some.inj hg
          exact h.counted p c hf hc
        · rw [Function.update_of_ne hfp] at hg
          exact h.counted f g hf hg
    · rw [hdepends] at hf
      rw [hlive]
      rcases List.mem_append.mp hf with hf | hf
      · exact h.named q f hf
      · split at hf
        · rw [List.mem_singleton.mp hf]
          exact ⟨hd, by rw [he]; rfl⟩
        · exact absurd hf List.not_mem_nil
    · rw [hdepends]
      exact List.mem_append_left _ (h.looked q f hf)

theorem step_held {a : Action} (h : Held s) (hlegal : s.Legal a) (hstep : s.step a = .ok after) :
    Held after := by
  obtain ⟨howned, hcounting⟩ := hlegal
  have hsafe := step_safe h.safe howned hstep
  cases a with
  | advance tp => exact advance_held h hstep
  | create =>
      obtain ⟨⟨p, m⟩, hcall, hstep⟩ := Lib.bind_ok hstep
      obtain rfl := Except.ok.inj hstep
      exact create_held h hcall
  | addDependency tp dtp =>
      obtain ⟨m, hcall, hstep⟩ := Lib.bind_ok hstep
      obtain rfl := Except.ok.inj hstep
      exact addDependency_held h howned hcounting hcall
  | commit tp =>
      obtain ⟨t, ht, hstep⟩ := Lib.bind_ok hstep
      obtain rfl := Except.ok.inj hstep
      have hadding : s.pc tp = .adding := howned
      apply h.of_read hsafe (goto_pc _ _ _ _) rfl hcounting
      · exact fun v hv => by rw [hadding] at hv; cases hv
      · rw [hadding]
        rfl
      · intro d hd
        rw [dependsOf_of_view (view_of_get ht)]
        exact Or.inr hd
  | abort tp =>
      obtain ⟨t, -, hstep⟩ := Lib.bind_ok hstep
      obtain rfl := Except.ok.inj hstep
      have hadding : s.pc tp = .adding := howned
      apply h.of_read hsafe (goto_pc _ _ _ _) rfl hcounting
      · exact fun v hv => by rw [hadding] at hv; cases hv
      · rw [hadding]
        rfl
      · exact List.forall_mem_nil _

theorem held_start : Held start := by
  have hnone {p : Ptr} {c : Transaction} (hp : p ≠ transList)
      (hc : view transInit p = some c) : False := by
    obtain ⟨t, ht, -⟩ := trans_of_view hc
    simp [transInit, hp] at ht
  have hempty (p : Ptr) : dependsOf start.manager p = [] := by
    by_cases hp : p = transList
    · subst p
      rfl
    · cases hc : view transInit p with
      | none => exact dependsOf_of_none hc
      | some c => exact (hnone hp hc).elim
  refine ⟨safe_start, ⟨0, [], .transInit⟩, rfl, fun p hp hlt => ?_, fun d c hd hc => ?_,
    fun p d hd => ?_, fun p => List.forall_mem_nil _⟩
  · exact absurd hlt (Nat.not_lt.mpr (Nat.pos_of_ne_zero hp))
  · exact (hnone hd hc).elim
  · rw [hempty] at hd
    exact absurd hd List.not_mem_nil

theorem run_held {actions : List Action} (hrun : Lib.Steps step Legal start actions s) : Held s :=
  hrun.invariant Held (fun _ _ _ h hlegal hstep => step_held h hlegal hstep) held_start

-- The neighbours of a transaction in the list are there, so it can be unlinked.
theorem unlinkFree_returns {n : Nat} {xs : List Ptr} (h : Chained False n m xs)
    (hp : p ≠ transList) (ht : m.trans p = some t) : ∃ after, unlinkFree m p t = .ok after := by
  have hmem : p ∈ xs := (h.members p).mpr ⟨hp, by rw [view_of_trans ht]; rfl⟩
  obtain ⟨first, second, rfl⟩ := List.append_of_mem hmem
  obtain ⟨front, q, hq⟩ := Lib.cut_before transList first
  obtain ⟨c, back, hc⟩ := Lib.cut_behind transList second
  obtain ⟨-, hqp, hpc, -⟩ := h.ring.around hq hc
  have hprev : t.prev = q := by rw [← prevOf_of_trans ht, hqp.2]
  have hnext : t.next = c := by rw [← nextOf_of_trans ht, hpc.1]
  have hlive {u : Ptr} (hu : u ∈ transList :: (first ++ p :: second)) :
      ∃ x, m.trans u = some x := by
    have hsome : (view m u).isSome := by
      rcases List.mem_cons.mp hu with rfl | hu
      · exact h.sentinel
      · exact ((h.members u).mp hu).2
    obtain ⟨x, hx⟩ := Option.isSome_iff_exists.mp hsome
    obtain ⟨x, hx, -⟩ := trans_of_view hx
    exact ⟨x, hx⟩
  have hqmem : q ∈ transList :: (first ++ p :: second) := by
    rw [← List.cons_append, hq]
    simp
  have hcmem : c ∈ transList :: (first ++ p :: second) := by
    have hc' : c ∈ second ++ [transList] := by
      rw [hc]
      exact List.mem_cons_self
    simp only [List.mem_append, List.mem_singleton] at hc'
    simp only [List.mem_cons, List.mem_append]
    tauto
  obtain ⟨x, hx⟩ := hlive hcmem
  obtain ⟨y, hy⟩ := hlive hqmem
  rw [← hnext] at hx
  rw [← hprev] at hy
  unfold unlinkFree
  rw [Manager.modify_of_trans _ hx, Lib.ok_bind]
  have hy' : ∃ z, (m.set t.next { x with prev := t.prev }).trans t.prev = some z := by
    by_cases he : t.prev = t.next
    · rw [he]
      exact ⟨_, Manager.set_trans_self _ _ _⟩
    · exact ⟨y, by rw [Manager.set_trans_of_ne _ _ he, hy]⟩
  obtain ⟨z, hz⟩ := hy'
  rw [Manager.modify_of_trans _ hz, Lib.ok_bind]
  exact ⟨_, rfl⟩

-- The owner waits for the semaphore of a transaction that is there.
def Waits (s : Threads) (p : Ptr) : Prop :=
  ∃ d rest t, s.pc p = .acquire d rest ∧ s.manager.trans d = some t ∧ t.sem = 0

theorem Held.advance (h : Held s) (hinside : Inside (s.pc tp)) :
    (∃ after, s.advance tp = .ok after) ∨ s.advance tp = .error .blocked ∧ Waits s tp := by
  have htp : tp ≠ transList := by
    rintro rfl
    rw [h.idle] at hinside
    exact hinside
  have hlt : tp < s.manager.fresh := by
    by_contra hle
    rw [(h.safe.unborn tp (Nat.not_lt.mp hle)).2] at hinside
    exact hinside
  have hfound {p : Ptr} (hp : (view s.manager p).isSome) :
      ∃ t, s.manager.trans p = some t ∧ view s.manager p = some (core t) := by
    obtain ⟨c, hc⟩ := Option.isSome_iff_exists.mp hp
    obtain ⟨t, ht, rfl⟩ := trans_of_view hc
    exact ⟨t, ht, hc⟩
  obtain ⟨t, ht, hc⟩ := hfound (h.present tp htp hlt fun v hv => by
    rw [hv] at hinside
    exact hinside)
  have hdep {d : Ptr} (hd : d ∈ ahead (s.pc tp)) : ∃ u, s.manager.trans d = some u := by
    obtain ⟨u, hu, -⟩ := hfound (h.named tp d (h.looked tp d hd)).2
    exact ⟨u, hu⟩
  unfold Threads.advance
  cases hpc : s.pc tp with
  | adding =>
      rw [hpc] at hinside
      exact hinside.elim
  | done v =>
      rw [hpc] at hinside
      exact hinside.elim
  | waiting rest =>
      cases rest with
      | nil => exact Or.inl ⟨_, by simp only [Manager.get_of_trans ht]; rfl⟩
      | cons d rest =>
          obtain ⟨u, hu⟩ := hdep (by rw [hpc]; exact List.mem_cons_self)
          exact Or.inl ⟨_, by simp only [Manager.get_of_trans hu]; rfl⟩
  | register d rest =>
      obtain ⟨u, hu⟩ := hdep (by rw [hpc]; exact List.mem_cons_self)
      exact Or.inl ⟨_, by simp only [Manager.modify_of_trans _ hu]; rfl⟩
  | acquire d rest =>
      obtain ⟨u, hu⟩ := hdep (by rw [hpc]; exact List.mem_cons_self)
      simp only [Manager.get_of_trans hu, Lib.ok_bind]
      by_cases hsem : u.sem = 0
      · rw [if_pos hsem]
        exact Or.inr ⟨rfl, d, rest, u, hpc, hu, hsem⟩
      · rw [if_neg hsem]
        exact Or.inl ⟨_, rfl⟩
  | scanning rest =>
      cases rest with
      | nil => exact Or.inl ⟨_, rfl⟩
      | cons d rest =>
          obtain ⟨u, hu⟩ := hdep (by rw [hpc]; exact List.mem_cons_self)
          exact Or.inl ⟨_, by simp only [Manager.get_of_trans hu]; rfl⟩
  | abortingFinal =>
      -- trans_abort comes here only if the status has changed under it
      have hpassed := h.safe.passed tp _ hc
      rw [hpc] at hpassed
      exact hpassed.elim
  | aborting => exact Or.inl ⟨_, by simp only [Manager.get_of_trans ht]; rfl⟩
  | storeAborted => exact Or.inl ⟨_, by simp only [Manager.modify_of_trans _ ht]; rfl⟩
  | snapshot v => exact Or.inl ⟨_, by simp only [Manager.get_of_trans ht]; rfl⟩
  | posting v n =>
      cases n with
      | zero => exact Or.inl ⟨_, rfl⟩
      | succ n => exact Or.inl ⟨_, by simp only [Manager.modify_of_trans _ ht]; rfl⟩
  | counting v n => exact Or.inl ⟨_, rfl⟩
  | storeCommitted => exact Or.inl ⟨_, by simp only [Manager.modify_of_trans _ ht]; rfl⟩
  | releasing v => exact Or.inl ⟨_, by simp only [Manager.modify_of_trans _ ht]; rfl⟩
  | freeing v =>
      simp only [Manager.get_of_trans ht, Lib.ok_bind]
      by_cases hzero : t.refcnt = 0
      · obtain ⟨n, xs, hx⟩ := h.chained
        obtain ⟨m, hm⟩ := unlinkFree_returns hx htp ht
        rw [if_pos hzero, hm]
        exact Or.inl ⟨_, rfl⟩
      · rw [if_neg hzero]
        exact Or.inl ⟨_, rfl⟩

-- A thread inside trans_commit or trans_abort makes its next step or waits for a
-- semaphore: it reads no freed transaction, and trans_abort does not end the program.
theorem advance_returns_or_waits {actions : List Action}
    (hrun : Lib.Steps step Legal start actions s) (hinside : Inside (s.pc tp)) :
    (∃ after, s.advance tp = .ok after) ∨ s.advance tp = .error .blocked ∧ Waits s tp :=
  (run_held hrun).advance hinside

-- The second transaction depends on the first one and waits for it to finish.
theorem waits_of_dependent : ∃ s, Lib.Steps step Legal start
      [.create, .create, .addDependency 2 1, .commit 2, .advance 2, .advance 2, .abort 1] s ∧
    Waits s 2 ∧ ((∃ after, s.advance 2 = .ok after) ∨ s.advance 2 = .error .blocked ∧ Waits s 2) ∧
    ∃ after, s.advance 1 = .ok after := by
  obtain ⟨s, t, hrun, hpc, ht, hsem, hfirst⟩ : ∃ (s : Threads) (t : Transaction),
      Lib.checkedRun step Legal start
        [.create, .create, .addDependency 2 1, .commit 2, .advance 2, .advance 2, .abort 1] =
        some s ∧
      s.pc 2 = .acquire 1 [] ∧ s.manager.trans 1 = some t ∧ t.sem = 0 ∧ s.pc 1 = .aborting :=
    ⟨_, _, rfl, rfl, rfl, rfl, rfl⟩
  have hrun := Lib.Steps.of_checkedRun hrun
  have hwaits : Waits s 2 := ⟨1, [], t, hpc, ht, hsem⟩
  refine ⟨s, hrun, hwaits, advance_returns_or_waits hrun (by rw [hpc]; trivial), ?_⟩
  rcases advance_returns_or_waits hrun (show Inside (s.pc 1) by rw [hfirst]; trivial) with
    hreturns | ⟨-, d, rest, u, hwaiting, -⟩
  · exact hreturns
  · rw [hfirst] at hwaiting
    cases hwaiting

end

end CSE320.Xacto.Threads
