import CSE320.Xacto.Transaction.Lemmas
import Mathlib.Logic.Function.Basic

namespace CSE320.Xacto

open Function (update)

-- A transaction without its place in the list of all transactions.
def core (t : Transaction) : Transaction := { t with next := transList, prev := transList }

def view (m : Manager) (p : Ptr) : Option Transaction := (m.trans p).map core

-- What trans_unref leaves of a transaction.
def dropRef (t : Transaction) : Option Transaction :=
  if t.refcnt = 1 then none else some { t with refcnt := t.refcnt - 1 }

theorem view_of_trans {m : Manager} {p : Ptr} {t : Transaction} (h : m.trans p = some t) :
    view m p = some (core t) := by
  simp [view, h]

theorem trans_of_view {m : Manager} {p : Ptr} {c : Transaction} (h : view m p = some c) :
    ∃ t, m.trans p = some t ∧ core t = c := Option.map_eq_some_iff.mp h

@[simp] theorem view_set (m : Manager) (p : Ptr) (t : Transaction) :
    view (m.set p t) = update (view m) p (some (core t)) := by
  funext q
  by_cases hq : q = p
  · subst q
    simp [view]
  · simp [view, Manager.set_trans_of_ne _ _ hq, hq]

@[simp] theorem view_free (m : Manager) (p : Ptr) : view (m.free p) = update (view m) p none := by
  funext q
  by_cases hq : q = p
  · subst q
    simp [view]
  · simp [view, Manager.free_trans_of_ne _ hq, hq]

-- A change of list links is not seen in the view.
theorem view_modify_links {m after : Manager} {p : Ptr} {f : Transaction → Transaction}
    (h : m.modify p f = .ok after) (hf : ∀ t, core (f t) = core t) :
    view after = view m ∧ after.fresh = m.fresh := by
  obtain ⟨t, ht, rfl⟩ := Manager.modify_ok h
  refine ⟨?_, rfl⟩
  rw [view_set, hf, ← view_of_trans ht]
  exact Function.update_eq_self _ _

theorem transRef_ok {m after : Manager} {p : Ptr} (h : transRef m (some p) = .ok after) :
    ∃ c, view m p = some c ∧ after.fresh = m.fresh ∧
      view after = update (view m) p (some { c with refcnt := c.refcnt + 1 }) := by
  obtain ⟨t, ht, rfl⟩ := Manager.modify_ok h
  exact ⟨core t, view_of_trans ht, rfl, view_set m p _⟩

theorem transCreate_ok {m after : Manager} {p : Ptr} (h : transCreate m = .ok (p, after)) :
    p = m.fresh ∧ after.fresh = m.fresh + 1 ∧
      view after = update (view m) m.fresh (some
        { id := m.uniqueId, refcnt := 1, status := .pending, depends := [],
          waitcnt := 0, sem := 0, next := transList, prev := transList }) := by
  unfold transCreate at h
  obtain ⟨last, -, h⟩ := Lib.bind_ok h
  obtain ⟨m₁, h₁, h⟩ := Lib.bind_ok h
  obtain ⟨m₂, h₂, h⟩ := Lib.bind_ok h
  obtain ⟨m₃, h₃, h⟩ := Lib.bind_ok h
  obtain ⟨rfl, rfl⟩ := Prod.mk.inj (Except.ok.inj h)
  obtain ⟨t, ht, rfl⟩ := Manager.modify_ok h₁
  rw [Manager.set_trans_self] at ht
  obtain rfl := Option.some.inj ht
  obtain ⟨hv₂, hf₂⟩ := view_modify_links h₂ (fun _ => rfl)
  obtain ⟨hv₃, hf₃⟩ := view_modify_links h₃ (fun _ => rfl)
  refine ⟨rfl, by rw [hf₃, hf₂]; rfl, ?_⟩
  rw [hv₃, hv₂, view_set, view_set, Function.update_idem]
  rfl

theorem unlinkFree_ok {m after : Manager} {p : Ptr} {t : Transaction}
    (h : unlinkFree m p t = .ok after) :
    after.fresh = m.fresh ∧ view after = update (view m) p none := by
  obtain ⟨m₁, h₁, h⟩ := Lib.bind_ok h
  obtain ⟨m₂, h₂, h⟩ := Lib.bind_ok h
  obtain rfl := Except.ok.inj h
  obtain ⟨hv₁, hf₁⟩ := view_modify_links h₁ (fun _ => rfl)
  obtain ⟨hv₂, hf₂⟩ := view_modify_links h₂ (fun _ => rfl)
  exact ⟨by rw [Manager.free_fresh, hf₂, hf₁], by rw [view_free, hv₂, hv₁]⟩

theorem transUnref_ok {m after : Manager} {p : Ptr} (h : transUnref m (some p) = .ok after) :
    ∃ c, view m p = some c ∧ after.fresh = m.fresh ∧
      view after = update (view m) p (dropRef c) := by
  unfold transUnref at h
  obtain ⟨t, ht, h⟩ := Lib.bind_ok h
  refine ⟨core t, view_of_trans (Manager.get_ok.mp ht), ?_⟩
  have hone : t.refcnt - 1 = 0 ↔ (core t).refcnt = 1 := by
    simp only [core]
    bv_omega
  by_cases hzero : t.refcnt - 1 = 0
  · simp only [hzero, if_true] at h
    obtain ⟨hf, hv⟩ := unlinkFree_ok h
    refine ⟨hf, ?_⟩
    rw [hv, view_set, Function.update_idem, dropRef, if_pos (hone.mp hzero)]
  · simp only [hzero, if_false] at h
    obtain rfl := Except.ok.inj h
    refine ⟨rfl, ?_⟩
    rw [view_set, dropRef, if_neg (fun he => hzero (hone.mpr he))]
    rfl

theorem appendDependency_ok {m : Manager} {dtp : Ptr} {id : BitVec 32} {entries after : List Ptr}
    (h : appendDependency m dtp id entries = .ok (some after)) : after = entries ++ [dtp] := by
  induction entries generalizing after with
  | nil => cases h; rfl
  | cons first rest ih =>
      cases rest with
      | nil => cases h; rfl
      | cons next rest =>
          unfold appendDependency at h
          obtain ⟨t, -, h⟩ := Lib.bind_ok h
          split at h
          · cases h
          · obtain ⟨tail, htail, h⟩ := Lib.bind_ok h
            obtain ⟨tail, rfl, rfl⟩ := Option.map_eq_some_iff.mp (Except.ok.inj h)
            rw [ih htail]
            rfl

theorem transAddDependency_ok {m after : Manager} {tp dtp : Ptr}
    (h : transAddDependency m (some tp) (some dtp) = .ok after) :
    after.fresh = m.fresh ∧ (view after = view m ∨
      ∃ c d, view m tp = some c ∧ view m dtp = some d ∧ dtp ≠ tp ∧
        view after = update (update (view m) tp (some { c with depends := c.depends ++ [dtp] }))
          dtp (some { d with refcnt := d.refcnt + 1 })) := by
  unfold transAddDependency at h
  obtain ⟨t, ht, h⟩ := Lib.bind_ok h
  obtain ⟨d, hd, h⟩ := Lib.bind_ok h
  obtain ⟨result, hresult, h⟩ := Lib.bind_ok h
  cases result with
  | none =>
      obtain rfl := Except.ok.inj h
      exact ⟨rfl, Or.inl rfl⟩
  | some depends =>
      obtain rfl := appendDependency_ok hresult
      by_cases he : dtp = tp
      · simp [he] at h
      · simp only [he, if_false] at h
        obtain ⟨c, hc, hf, hv⟩ := transRef_ok h
        rw [view_set, Function.update_of_ne he] at hc
        refine ⟨hf, Or.inr ⟨core t, c, view_of_trans (Manager.get_ok.mp ht), hc, he, ?_⟩⟩
        rw [hv, view_set]
        rfl

theorem postWaiters_ok {m after : Manager} {p : Ptr} (h : postWaiters m p = .ok after) :
    ∃ c, view m p = some c ∧ after.fresh = m.fresh ∧
      view after = update (view m) p (some { c with sem := c.sem + c.waitcnt }) := by
  obtain ⟨t, ht, rfl⟩ := Manager.modify_ok h
  exact ⟨core t, view_of_trans ht, rfl, view_set m p _⟩

theorem transAbort_ok {m after : Manager} {tp : Ptr} {st : TransStatus}
    (h : transAbort m tp = .ok (st, after)) :
    ∃ c, view m tp = some c ∧ c.status ≠ .committed ∧ after.fresh = m.fresh ∧
      view after = update (view m) tp
        (dropRef { c with status := .aborted, sem := c.sem + c.waitcnt }) := by
  unfold transAbort at h
  obtain ⟨t, ht, h⟩ := Lib.bind_ok h
  have hview := view_of_trans (Manager.get_ok.mp ht)
  have hst : (core t).status = t.status := rfl
  refine ⟨core t, hview, ?_⟩
  cases hs : t.status with
  | committed =>
      simp only [hs] at h
      obtain ⟨_, _, h⟩ := Lib.bind_ok h
      cases h
  | pending =>
      simp only [hs] at h
      obtain ⟨m₁, h₁, h⟩ := Lib.bind_ok h
      obtain ⟨m₂, h₂, h⟩ := Lib.bind_ok h
      obtain ⟨-, rfl⟩ := Prod.mk.inj (Except.ok.inj h)
      obtain ⟨c₁, hc₁, hf₁, hv₁⟩ := postWaiters_ok h₁
      obtain ⟨c₂, hc₂, hf₂, hv₂⟩ := transUnref_ok h₂
      rw [view_set, Function.update_self] at hc₁
      obtain rfl := Option.some.inj hc₁
      rw [hv₁, Function.update_self] at hc₂
      obtain rfl := Option.some.inj hc₂
      refine ⟨by simp [hst, hs], by rw [hf₂, hf₁]; rfl, ?_⟩
      rw [hv₂, hv₁, view_set, Function.update_idem, Function.update_idem]
      rfl
  | aborted =>
      simp only [hs] at h
      obtain ⟨m₁, h₁, h⟩ := Lib.bind_ok h
      obtain ⟨m₂, h₂, h⟩ := Lib.bind_ok h
      obtain ⟨-, rfl⟩ := Prod.mk.inj (Except.ok.inj h)
      obtain ⟨c₁, hc₁, hf₁, hv₁⟩ := postWaiters_ok h₁
      obtain ⟨c₂, hc₂, hf₂, hv₂⟩ := transUnref_ok h₂
      rw [hview] at hc₁
      obtain rfl := Option.some.inj hc₁
      rw [hv₁, Function.update_self] at hc₂
      obtain rfl := Option.some.inj hc₂
      refine ⟨by simp [hst, hs], hf₂.trans hf₁, ?_⟩
      rw [hv₂, hv₁, Function.update_idem]
      simp only [core, hs]

-- Calls that run one at a time leave no semaphore count and no waiter behind.
def Quiet (m : Manager) : Prop :=
  ∀ p c, view m p = some c → c.sem = 0 ∧ c.waitcnt = 0

theorem waitDependencies_quiet {m after : Manager} {ds : List Ptr} (hq : Quiet m)
    (h : waitDependencies m ds = .ok after) :
    after = m ∧ ∀ d ∈ ds, ∃ c, view m d = some c ∧ c.status ≠ .pending := by
  induction ds with
  | nil => cases h; simp
  | cons d ds ih =>
      unfold waitDependencies at h
      obtain ⟨t, ht, h⟩ := Lib.bind_ok h
      have hview := view_of_trans (Manager.get_ok.mp ht)
      have hsem : t.sem = 0 := (hq d _ hview).1
      have hrest (hs : t.status ≠ .pending) (hr : waitDependencies m ds = .ok after) :
          after = m ∧ ∀ e ∈ d :: ds, ∃ c, view m e = some c ∧ c.status ≠ .pending := by
        obtain ⟨rfl, hall⟩ := ih hr
        refine ⟨rfl, fun e he => ?_⟩
        rcases List.mem_cons.mp he with rfl | he
        · exact ⟨_, hview, hs⟩
        · exact hall e he
      cases hs : t.status with
      | pending => simp [hs, hsem] at h
      | committed => exact hrest (by simp [hs]) (by simpa [hs] using h)
      | aborted => exact hrest (by simp [hs]) (by simpa [hs] using h)

theorem anyAborted_ok {m : Manager} {ds : List Ptr} {b : Bool} (h : anyAborted m ds = .ok b) :
    (b = true → ∃ d ∈ ds, ∃ c, view m d = some c ∧ c.status = .aborted) ∧
    (b = false → ∀ d ∈ ds, ∀ c, view m d = some c → c.status ≠ .aborted) := by
  induction ds with
  | nil => cases h; simp
  | cons d ds ih =>
      unfold anyAborted at h
      obtain ⟨t, ht, h⟩ := Lib.bind_ok h
      have hview := view_of_trans (Manager.get_ok.mp ht)
      by_cases hs : t.status = .aborted
      · simp only [hs, if_true] at h
        obtain rfl := Except.ok.inj h
        exact ⟨fun _ => ⟨d, by simp, _, hview, hs⟩, by simp⟩
      · simp only [hs, if_false] at h
        obtain ⟨htrue, hfalse⟩ := ih h
        refine ⟨fun hb => ?_, fun hb e he c hc => ?_⟩
        · obtain ⟨e, he, hrest⟩ := htrue hb
          exact ⟨e, List.mem_cons_of_mem _ he, hrest⟩
        · rcases List.mem_cons.mp he with rfl | he
          · obtain rfl := Option.some.inj (hview.symm.trans hc)
            exact hs
          · exact hfalse hb e he c hc

-- A commit that returns has found every dependency finished. It aborts when
-- one of them is aborted and commits when all of them are committed.
theorem transCommit_ok {m after : Manager} {tp : Ptr} {st : TransStatus} (hq : Quiet m)
    (h : transCommit m tp = .ok (st, after)) :
    ∃ c, view m tp = some c ∧ after.fresh = m.fresh ∧
      ((c.status ≠ .committed ∧ (∃ d ∈ c.depends, ∃ u, view m d = some u ∧ u.status = .aborted) ∧
        view after = update (view m) tp
          (dropRef { c with status := .aborted, sem := c.sem + c.waitcnt })) ∨
      ((∀ d ∈ c.depends, ∃ u, view m d = some u ∧ u.status = .committed) ∧
        view after = update (view m) tp
          (dropRef { c with status := .committed, sem := c.sem + c.waitcnt }))) := by
  unfold transCommit at h
  obtain ⟨t, ht, h⟩ := Lib.bind_ok h
  have hview := view_of_trans (Manager.get_ok.mp ht)
  obtain ⟨m₁, hwait, hrest⟩ := Lib.bind_ok h
  obtain ⟨rfl, hdone⟩ := waitDependencies_quiet hq hwait
  obtain ⟨b, hany, h⟩ := Lib.bind_ok hrest
  obtain ⟨htrue, hfalse⟩ := anyAborted_ok hany
  refine ⟨core t, hview, ?_⟩
  cases b with
  | true =>
      simp only [if_true] at h
      obtain ⟨c, hc, hs, hf, hv⟩ := transAbort_ok h
      obtain rfl := Option.some.inj (hview.symm.trans hc)
      exact ⟨hf, Or.inl ⟨hs, htrue rfl, hv⟩⟩
  | false =>
      simp only [Bool.false_eq_true, if_false] at h
      obtain ⟨m₂, h₂, h⟩ := Lib.bind_ok h
      obtain ⟨m₃, h₃, h⟩ := Lib.bind_ok h
      obtain ⟨m₄, h₄, h⟩ := Lib.bind_ok h
      obtain ⟨-, rfl⟩ := Prod.mk.inj (Except.ok.inj h)
      obtain ⟨c₂, hc₂, hf₂, hv₂⟩ := postWaiters_ok h₂
      obtain rfl := Option.some.inj (hview.symm.trans hc₂)
      obtain ⟨t₃, ht₃, rfl⟩ := Manager.modify_ok h₃
      have hc₃ := view_of_trans ht₃
      rw [hv₂, Function.update_self] at hc₃
      obtain ⟨c₄, hc₄, hf₄, hv₄⟩ := transUnref_ok h₄
      have hset : core { t₃ with status := .committed } =
          { core t with status := .committed, sem := (core t).sem + (core t).waitcnt } := by
        change { core t₃ with status := .committed } = _
        rw [← Option.some.inj hc₃]
      rw [view_set, Function.update_self, hset] at hc₄
      obtain rfl := Option.some.inj hc₄
      refine ⟨by rw [hf₄, Manager.set_fresh, hf₂], Or.inr ⟨fun d hd => ?_, ?_⟩⟩
      · obtain ⟨u, hu, hp⟩ := hdone d hd
        refine ⟨u, hu, ?_⟩
        have ha := hfalse rfl d hd u hu
        cases hs : u.status <;> simp_all
      · rw [hv₄, view_set, hset, hv₂, Function.update_idem, Function.update_idem]

end CSE320.Xacto
