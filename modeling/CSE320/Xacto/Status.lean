import CSE320.Xacto.Data
import CSE320.Xacto.Transaction.Views

namespace CSE320.Xacto

open Function (update)

-- The states between calls: no count is left on a semaphore, and the numbers
-- from fresh on are not in use.
structure Settled (m : Manager) : Prop where
  quiet : Quiet m
  bounded : ∀ p c, view m p = some c → p < m.fresh

-- One or more calls that, provided the condition holds, keep every status that
-- is no longer pending. A freed transaction stays freed.
structure Carries (keep : Prop) (m after : Manager) : Prop where
  fresh : m.fresh ≤ after.fresh
  settled : Settled after
  status : keep → ∀ p c, p < m.fresh → view after p = some c →
    ∃ c₀, view m p = some c₀ ∧ (c₀.status ≠ .pending → c.status = c₀.status)

variable {keep : Prop}

theorem Carries.refl {m : Manager} (hm : Settled m) : Carries keep m m :=
  ⟨Nat.le_refl _, hm, fun _ _ c _ hc => ⟨c, hc, fun _ => rfl⟩⟩

theorem Carries.of_view_eq {m after : Manager} (hm : Settled m) (hfresh : after.fresh = m.fresh)
    (hview : view after = view m) : Carries keep m after := by
  refine ⟨Nat.le_of_eq hfresh.symm, ⟨?_, ?_⟩, fun _ p c _ hc => ⟨c, hview ▸ hc, fun _ => rfl⟩⟩
  · intro p c hc
    exact hm.quiet p c (hview ▸ hc)
  · intro p c hc
    exact hfresh ▸ hm.bounded p c (hview ▸ hc)

theorem Carries.trans {m middle after : Manager} (h : Carries keep m middle)
    (h' : Carries keep middle after) : Carries keep m after := by
  refine ⟨Nat.le_trans h.fresh h'.fresh, h'.settled, fun hk p c hp hc => ?_⟩
  obtain ⟨c₁, hc₁, hs₁⟩ := h'.status hk p c (Nat.lt_of_lt_of_le hp h.fresh) hc
  obtain ⟨c₀, hc₀, hs₀⟩ := h.status hk p c₁ hp hc₁
  refine ⟨c₀, hc₀, fun hn => ?_⟩
  have he := hs₀ hn
  rw [hs₁ (he ▸ hn), he]

-- The entry of one transaction is replaced by one that is quiet and has kept
-- its final status, or it is removed.
theorem Carries.of_update {m after : Manager} {p : Ptr} {c : Transaction}
    {entry : Option Transaction} (hm : Settled m) (hc : view m p = some c)
    (hfresh : after.fresh = m.fresh) (hview : view after = update (view m) p entry)
    (hquiet : ∀ e, entry = some e → e.sem = 0 ∧ e.waitcnt = 0)
    (hstatus : keep → ∀ e, entry = some e → c.status ≠ .pending → e.status = c.status) :
    Carries keep m after := by
  have hsplit (q : Ptr) (e : Transaction) (he : view after q = some e) :
      (q = p ∧ entry = some e) ∨ view m q = some e := by
    rw [hview] at he
    by_cases hp : q = p
    · subst q
      exact Or.inl ⟨rfl, by simpa using he⟩
    · rw [Function.update_of_ne hp] at he
      exact Or.inr he
  refine ⟨Nat.le_of_eq hfresh.symm, ⟨fun q e he => ?_, fun q e he => ?_⟩, fun hk q e _ he => ?_⟩ <;>
    rcases hsplit q e he with ⟨rfl, hentry⟩ | hold
  · exact hquiet e hentry
  · exact hm.quiet q e hold
  · exact hfresh ▸ hm.bounded q c hc
  · exact hfresh ▸ hm.bounded q e hold
  · exact ⟨c, hc, hstatus hk e hentry⟩
  · exact ⟨e, hold, fun _ => rfl⟩

theorem dropRef_some {t e : Transaction} (h : dropRef t = some e) :
    e = { t with refcnt := t.refcnt - 1 } := by
  unfold dropRef at h
  split at h
  · cases h
  · exact (Option.some.inj h).symm

theorem transRef_carries {m after : Manager} {tp : Option Ptr} (hm : Settled m)
    (h : transRef m tp = .ok after) : Carries keep m after := by
  cases tp with
  | none => cases h; exact .refl hm
  | some p =>
      obtain ⟨c, hc, hf, hv⟩ := transRef_ok h
      refine .of_update hm hc hf hv (fun e he => ?_) (fun _ e he _ => ?_) <;> cases he
      · exact hm.quiet p c hc
      · rfl

theorem transUnref_carries {m after : Manager} {tp : Option Ptr} (hm : Settled m)
    (h : transUnref m tp = .ok after) : Carries keep m after := by
  cases tp with
  | none => cases h; exact .refl hm
  | some p =>
      obtain ⟨c, hc, hf, hv⟩ := transUnref_ok h
      refine .of_update hm hc hf hv (fun e he => ?_) (fun _ e he _ => ?_) <;> rw [dropRef_some he]
      exact hm.quiet p c hc

theorem transCreate_carries {m after : Manager} {p : Ptr} (hm : Settled m)
    (h : transCreate m = .ok (p, after)) : Carries keep m after := by
  obtain ⟨rfl, hf, hv⟩ := transCreate_ok h
  refine ⟨by omega, ⟨fun q e he => ?_, fun q e he => ?_⟩, fun _ q e hlt he => ?_⟩ <;> rw [hv] at he
  · by_cases hp : q = m.fresh
    · subst q
      rw [Function.update_self] at he
      cases he
      exact ⟨rfl, rfl⟩
    · rw [Function.update_of_ne hp] at he
      exact hm.quiet q e he
  · by_cases hp : q = m.fresh
    · rw [hp, hf]
      exact Nat.lt_succ_self _
    · rw [Function.update_of_ne hp] at he
      exact Nat.lt_of_lt_of_le (hm.bounded q e he) (hf ▸ Nat.le_succ _)
  · rw [Function.update_of_ne (Nat.ne_of_lt hlt)] at he
    exact ⟨e, he, fun _ => rfl⟩

theorem transAddDependency_carries {m after : Manager} {tp dtp : Option Ptr} (hm : Settled m)
    (h : transAddDependency m tp dtp = .ok after) : Carries keep m after := by
  cases tp with
  | none => cases h; exact .refl hm
  | some tp =>
      cases dtp with
      | none => cases h; exact .refl hm
      | some dtp =>
          obtain ⟨hf, hv | ⟨c, d, hc, hd, hne, hv⟩⟩ := transAddDependency_ok h
          · exact .of_view_eq hm hf hv
          · obtain ⟨t, ht, rfl⟩ := trans_of_view hc
            have hmiddle : Carries keep m (m.set tp { t with depends := t.depends ++ [dtp] }) := by
              refine .of_update hm hc rfl (view_set _ _ _) (fun e he => ?_) (fun _ e he _ => ?_) <;>
                cases he
              · exact hm.quiet tp (core t) hc
              · rfl
            apply hmiddle.trans
            have hd' : view (m.set tp { t with depends := t.depends ++ [dtp] }) dtp = some d := by
              rw [view_set, Function.update_of_ne hne, hd]
            have hv' : view after =
                update (view (m.set tp { t with depends := t.depends ++ [dtp] })) dtp
                  (some { d with refcnt := d.refcnt + 1 }) := by
              rw [hv, view_set]
              rfl
            refine .of_update hmiddle.settled hd' hf hv' (fun e he => ?_) (fun _ e he _ => ?_) <;>
              cases he
            · exact hm.quiet dtp d hd
            · rfl

theorem transAbort_carries {m after : Manager} {tp : Ptr} {st : TransStatus} (hm : Settled m)
    (h : transAbort m tp = .ok (st, after)) : Carries keep m after := by
  obtain ⟨c, hc, hs, hf, hv⟩ := transAbort_ok h
  obtain ⟨hsem, hwait⟩ := hm.quiet tp c hc
  refine .of_update hm hc hf hv (fun e he => ?_) (fun hk e he hp => ?_) <;> rw [dropRef_some he]
  · simp [hsem, hwait]
  · cases hst : c.status <;> simp_all

-- A commit that turns an aborted transaction into a committed one.
def Revives (m : Manager) (tp : Ptr) : Prop :=
  ∃ t, m.trans tp = some t ∧ t.status = .aborted ∧
    ∀ d ∈ t.depends, ∃ u, m.trans d = some u ∧ u.status = .committed

theorem transCommit_carries {m after : Manager} {tp : Ptr} {st : TransStatus} (hm : Settled m)
    (h : transCommit m tp = .ok (st, after)) : Carries (¬Revives m tp) m after := by
  obtain ⟨c, hc, hf, ⟨hs, -, hv⟩ | ⟨hall, hv⟩⟩ := transCommit_ok hm.quiet h
  all_goals
    obtain ⟨hsem, hwait⟩ := hm.quiet tp c hc
    refine .of_update hm hc hf hv (fun e he => ?_) (fun hk e he hp => ?_) <;> rw [dropRef_some he]
  · simp [hsem, hwait]
  · cases hst : c.status <;> simp_all
  · simp [hsem, hwait]
  · cases hst : c.status with
    | pending => exact absurd hst hp
    | committed => rfl
    | aborted =>
        -- every dependency has committed, so this is the excluded call
        obtain ⟨t, ht, rfl⟩ := trans_of_view hc
        refine absurd ⟨t, ht, hst, fun d hd => ?_⟩ hk
        obtain ⟨c, hc, hcommitted⟩ := hall d hd
        obtain ⟨u, hu, rfl⟩ := trans_of_view hc
        exact ⟨u, hu, hcommitted⟩

-- The calls of a run that revives no aborted transaction.
def Steady (w : World) (call : Call) : Prop :=
  ∀ tp, call = .commit tp → ¬Revives w.manager tp

theorem blobUnref_manager {w after : World} {bp : Option Ptr} (h : blobUnref w bp = .ok after) :
    after.manager = w.manager ∧ after.versions = w.versions := by
  cases bp with
  | none => cases h; exact ⟨rfl, rfl⟩
  | some bp =>
      simp only [blobUnref] at h
      split at h
      · cases h
      · cases h; exact ⟨rfl, rfl⟩

theorem exec_carries {w after : World} {call : Call} (hm : Settled w.manager)
    (h : w.exec call = .ok after) : Carries (Steady w call) w.manager after.manager := by
  cases call with
  | create =>
      obtain ⟨⟨p, manager⟩, hcall, h⟩ := Lib.bind_ok h
      cases h
      exact transCreate_carries hm hcall
  | ref tp =>
      obtain ⟨manager, hcall, h⟩ := Lib.bind_ok h
      cases h
      exact transRef_carries hm hcall
  | unref tp =>
      obtain ⟨manager, hcall, h⟩ := Lib.bind_ok h
      cases h
      exact transUnref_carries hm hcall
  | addDependency tp dtp =>
      obtain ⟨manager, hcall, h⟩ := Lib.bind_ok h
      cases h
      exact transAddDependency_carries hm hcall
  | commit tp =>
      obtain ⟨⟨st, manager⟩, hcall, h⟩ := Lib.bind_ok h
      cases h
      have hcarry := transCommit_carries hm hcall
      exact ⟨hcarry.fresh, hcarry.settled, fun hsteady => hcarry.status (hsteady tp rfl)⟩
  | abort tp =>
      obtain ⟨⟨st, manager⟩, hcall, h⟩ := Lib.bind_ok h
      cases h
      exact transAbort_carries hm hcall
  | blobCreate content size =>
      cases h
      exact .refl hm
  | versionCreate tp bp =>
      obtain ⟨⟨vp, w'⟩, hversion, h⟩ := Lib.bind_ok h
      cases h
      unfold versionCreate at hversion
      obtain ⟨⟨p, m₁⟩, h₁, hrest⟩ := Lib.bind_ok hversion
      obtain ⟨m₂, h₂, hrest⟩ := Lib.bind_ok hrest
      cases hrest
      cases tp with
      | some tp =>
          cases h₁
          exact transRef_carries hm h₂
      | none =>
          have hcreate : Carries (Steady w (.versionCreate none bp)) w.manager m₁ :=
            transCreate_carries hm h₁
          exact hcreate.trans (transRef_carries hcreate.settled h₂)
  | versionDispose vp =>
      cases vp with
      | none => cases h; exact .refl hm
      | some vp =>
          simp only [World.exec, versionDispose] at h
          split at h
          · cases h
          · obtain ⟨manager, hcall, h⟩ := Lib.bind_ok h
            obtain ⟨w', hw', h⟩ := Lib.bind_ok h
            cases h
            rw [(blobUnref_manager hw').1]
            exact transUnref_carries hm hcall

theorem settled_transInit : Settled transInit := by
  have htrans (p : Ptr) (c : Transaction) (hc : view transInit p = some c) :
      p = transList ∧ c.sem = 0 ∧ c.waitcnt = 0 := by
    obtain ⟨t, ht, rfl⟩ := trans_of_view hc
    simp only [transInit] at ht
    split at ht
    · cases ht
      exact ⟨‹_›, rfl, rfl⟩
    · cases ht
  refine ⟨fun p c hc => (htrans p c hc).2, fun p c hc => ?_⟩
  rw [(htrans p c hc).1]
  decide

theorem run_carries {w after : World} {calls : List Call} (hm : Settled w.manager)
    (hrun : Lib.Steps World.exec Steady w calls after) : Carries True w.manager after.manager := by
  apply hrun.invariant (fun w' => Carries True w.manager w'.manager) _ (.refl hm)
  intro w₁ call w₂ h₁ hguard hstep
  have hcarry := exec_carries h₁.settled hstep
  exact h₁.trans ⟨hcarry.fresh, hcarry.settled, fun _ => hcarry.status hguard⟩

theorem transGetStatus_ok {m : Manager} {p : Ptr} {st : TransStatus}
    (h : transGetStatus m p = .ok st) : ∃ c, view m p = some c ∧ c.status = st := by
  obtain ⟨t, ht, h⟩ := Lib.bind_ok h
  exact ⟨core t, view_of_trans (Manager.get_ok.mp ht), Except.ok.inj h⟩

-- A status that is no longer pending is final, as long as no call commits an
-- aborted transaction whose dependencies have all committed. Aborting a
-- committed transaction does not return.
theorem status_stable {earlier later : List Call} {w after : World} {p : Ptr}
    {st st' : TransStatus} (hearlier : Lib.Steps World.exec Steady .start earlier w)
    (hlater : Lib.Steps World.exec Steady w later after)
    (hst : transGetStatus w.manager p = .ok st) (hfinal : st ≠ .pending)
    (hst' : transGetStatus after.manager p = .ok st') :
    st' = st ∧ (st = .committed → ∀ next, w.exec (.abort p) ≠ .ok next) := by
  have hsettled := (run_carries settled_transInit hearlier).settled
  obtain ⟨c, hc, rfl⟩ := transGetStatus_ok hst
  obtain ⟨c', hc', rfl⟩ := transGetStatus_ok hst'
  refine ⟨?_, fun hcommitted next hnext => ?_⟩
  · obtain ⟨c₀, hc₀, hs⟩ :=
      (run_carries hsettled hlater).status trivial p c' (hsettled.bounded p c hc) hc'
    obtain rfl := Option.some.inj (hc.symm.trans hc₀)
    exact hs hfinal
  · obtain ⟨⟨st, manager⟩, hcall, -⟩ := Lib.bind_ok hnext
    obtain ⟨c₀, hc₀, hs, -⟩ := transAbort_ok hcall
    obtain rfl := Option.some.inj (hc.symm.trans hc₀)
    exact hs hcommitted

theorem steady_of_not_commit (w : World) {call : Call} (h : ∀ tp, call ≠ .commit tp) :
    Steady w call := fun tp htp => absurd htp (h tp)

-- A commit of a pending transaction, followed by one more reference.
theorem status_stable_after_commit :
    ∃ w after : World, Lib.Steps World.exec Steady .start [.create, .ref (some 1), .commit 1] w ∧
      Lib.Steps World.exec Steady w [.ref (some 1)] after ∧
      transGetStatus w.manager 1 = .ok .committed ∧
      (∀ st', transGetStatus after.manager 1 = .ok st' → st' = .committed) ∧
      ∀ next, w.exec (.abort 1) ≠ .ok next := by
  have hpending (w : World) (h : transGetStatus w.manager 1 = .ok .pending) :
      Steady w (.commit 1) := by
    rintro _ ⟨⟩ ⟨t, ht, hs, -⟩
    rw [transGetStatus, Manager.get_of_trans ht] at h
    rw [Except.ok.inj h] at hs
    cases hs
  obtain ⟨w, after, hearlier, hlater, hst, hst'⟩ : ∃ w after : World,
      Lib.Steps World.exec Steady .start [.create, .ref (some 1), .commit 1] w ∧
      Lib.Steps World.exec Steady w [.ref (some 1)] after ∧
      transGetStatus w.manager 1 = .ok .committed ∧
      transGetStatus after.manager 1 = .ok .committed :=
    ⟨_, _, .cons (steady_of_not_commit _ (by simp)) rfl <|
      .cons (steady_of_not_commit _ (by simp)) rfl <| .cons (hpending _ rfl) rfl <| .nil _,
      .cons (steady_of_not_commit _ (by simp)) rfl <| .nil _, rfl, rfl⟩
  exact ⟨w, after, hearlier, hlater, hst,
    fun st' h => (status_stable hearlier hlater hst (by decide) h).1,
    (status_stable hearlier hlater hst (by decide) hst').2 rfl⟩

-- A commit after an abort: three references are held, the abort consumes one,
-- and the commit then replaces the final status.
theorem status_unstable_commit_after_abort :
    ∃ w after : World, Lib.Steps World.exec (fun _ _ => True) .start
        [.create, .ref (some 1), .ref (some 1), .abort 1] w ∧
      Lib.Steps World.exec (fun _ _ => True) w [.commit 1] after ∧
      transGetStatus w.manager 1 = .ok .aborted ∧
      transGetStatus after.manager 1 = .ok .committed :=
  ⟨_, _, .cons trivial rfl <| .cons trivial rfl <| .cons trivial rfl <| .cons trivial rfl <| .nil _,
    .cons trivial rfl <| .nil _, rfl, rfl⟩

end CSE320.Xacto
