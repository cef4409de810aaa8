import CSE320.Lib.Sum
import CSE320.Xacto.Threads.Commit

namespace CSE320.Xacto.Threads

open Function (update)

-- The V operations that the owner still has to do, once it has read waitcnt.
def left : Pc → Option Nat
  | .posting _ n => some n
  | .counting _ n => some (n - 1)
  | .storeCommitted | .releasing _ | .freeing _ | .done _ => some 0
  | _ => none

-- A thread is blocked on the semaphore of a finished transaction whose owner has
-- done its last V.
def LostWakeup (s : Threads) : Prop :=
  ∃ p d rest t, s.pc p = .acquire d rest ∧ s.manager.trans d = some t ∧
    t.status ≠ .pending ∧ left (s.pc d) = some 0 ∧ t.sem = 0

-- The steps without a race on waitcnt: an owner reads its waitcnt only while no
-- thread is between its look at the status and its registration, and no thread
-- finds the status pending after that read.
def Registered (s : Threads) : Action → Prop
  | .advance p =>
    match s.pc p with
    | .snapshot _ => ∀ q rest, s.pc q ≠ .register p rest
    | .waiting (d :: _) =>
        ∀ t, s.manager.trans d = some t → t.status = .pending → left (s.pc d) = none
    | _ => True
  | _ => True

def registers (d : Ptr) : Pc → Nat
  | .register e _ => if e = d then 1 else 0
  | _ => 0

def acquires (d : Ptr) : Pc → Nat
  | .acquire e _ => if e = d then 1 else 0
  | _ => 0

-- The number of threads at positions that count for d.
def threadsAt (s : Threads) (f : Ptr → Pc → Nat) (d : Ptr) : Nat :=
  ∑ p ∈ Finset.range s.manager.fresh, f d (s.pc p)

-- Before the owner reads waitcnt, it counts the threads at the semaphore. Later
-- every such thread is paid for by a V that has been done or is still to come.
def Matches (c : Transaction) (registering acquiring : Nat) : Option Nat → Prop
  | none => c.sem = 0 ∧ acquiring = c.waitcnt
  | some n => registering = 0 ∧ acquiring = c.sem + n

structure Counted (s : Threads) : Prop where
  safe : Safe s
  named : ∀ p d, registers d (s.pc p) + acquires d (s.pc p) ≠ 0 → d < s.manager.fresh
  counted : ∀ d c, view s.manager d = some c →
    Matches c (threadsAt s registers d) (threadsAt s acquires d) (left (s.pc d))

theorem threadsAt_move {s after : Threads} {tp : Ptr} {next : Pc}
    (hpc : after.pc = update s.pc tp next) (hfresh : after.manager.fresh = s.manager.fresh)
    (htp : tp < s.manager.fresh) (f : Ptr → Pc → Nat) (d : Ptr) :
    threadsAt after f d + f d (s.pc tp) = threadsAt s f d + f d next := by
  have hchange := Lib.sum_range_change (fun p => f d (after.pc p)) (fun p => f d (s.pc p)) htp
    (fun p hp => by rw [hpc, Function.update_of_ne hp])
  rw [hpc] at hchange
  rw [threadsAt, threadsAt, hfresh, hpc]
  simpa only [Function.update_self] using hchange

-- A move that concerns one transaction q only, as far as the counts go.
theorem Counted.of_move {s after : Threads} {tp q : Ptr} {next : Pc} {entry : Option Transaction}
    (h : Counted s) (hsafe : Safe after) (hpc : after.pc = update s.pc tp next)
    (hfresh : after.manager.fresh = s.manager.fresh) (htp : tp < s.manager.fresh)
    (hview : view after.manager = update (view s.manager) q entry)
    (hnamed : ∀ d, registers d next + acquires d next ≠ 0 → d < s.manager.fresh)
    (hother : ∀ d, d ≠ q → registers d next = registers d (s.pc tp) ∧
      acquires d next = acquires d (s.pc tp))
    (hleft : tp ≠ q → left next = left (s.pc tp))
    (hq : ∀ e, entry = some e →
      Matches e (threadsAt after registers q) (threadsAt after acquires q) (left (after.pc q))) :
    Counted after := by
  refine ⟨hsafe, fun p d hne => ?_, fun d e he => ?_⟩
  · rw [hfresh]
    by_cases hp : p = tp
    · subst p
      rw [hpc, Function.update_self] at hne
      exact hnamed d hne
    · rw [hpc, Function.update_of_ne hp] at hne
      exact h.named p d hne
  · rw [hview] at he
    by_cases hd : d = q
    · subst d
      rw [Function.update_self] at he
      exact hq e he
    · rw [Function.update_of_ne hd] at he
      have hold := h.counted d e he
      obtain ⟨hregisters, hacquires⟩ := hother d hd
      have hr := threadsAt_move hpc hfresh htp registers d
      have ha := threadsAt_move hpc hfresh htp acquires d
      have hr' : threadsAt after registers d = threadsAt s registers d := by omega
      have ha' : threadsAt after acquires d = threadsAt s acquires d := by omega
      have hl : left (after.pc d) = left (s.pc d) := by
        by_cases hdt : d = tp
        · subst d
          rw [hpc, Function.update_self, hleft hd]
        · rw [hpc, Function.update_of_ne hdt]
      rw [hr', ha', hl]
      exact hold

theorem threadsAt_eq_zero {s : Threads} {d : Ptr} (h : ∀ q rest, s.pc q ≠ .register d rest) :
    threadsAt s registers d = 0 := by
  apply Finset.sum_eq_zero
  intro p _
  cases hpc : s.pc p with
  | register e rest =>
      have hne : e ≠ d := fun he => h p rest (he ▸ hpc)
      simp [registers, hne]
  | _ => rfl

theorem advance_counted {s after : Threads} {tp : Ptr} (h : Counted s)
    (hreg : s.Registered (.advance tp)) (hstep : s.advance tp = .ok after) : Counted after := by
  have hsafe := advance_safe h.safe hstep
  obtain ⟨next, hpc, hfresh, hmove⟩ := advance_ok hstep
  have hself : after.pc tp = next := by rw [hpc, Function.update_self]
  have htp : tp < s.manager.fresh := by
    by_contra hle
    rw [(h.safe.unborn tp (Nat.not_lt.mp hle)).2] at hmove
    cases hmove
  have hr := threadsAt_move hpc hfresh htp registers
  have ha := threadsAt_move hpc hfresh htp acquires
  -- moves that leave the semaphores and their counts alone
  have hown {entry : Option Transaction} (hv : view after.manager =
      update (view s.manager) tp entry)
      (hregisters : ∀ d, registers d next = 0 ∧ registers d (s.pc tp) = 0)
      (hacquires : ∀ d, acquires d next = 0 ∧ acquires d (s.pc tp) = 0)
      (hentry : ∀ e, entry = some e →
        Matches e (threadsAt s registers tp) (threadsAt s acquires tp) (left next)) : Counted
          after := by
    refine h.of_move hsafe hpc hfresh htp hv (fun d hne => ?_) (fun d _ => ?_)
      (fun hne => absurd rfl hne)
      (fun e he => ?_)
    · rw [(hregisters d).1, (hacquires d).1] at hne
      exact absurd rfl hne
    · rw [(hregisters d).1, (hregisters d).2, (hacquires d).1, (hacquires d).2]
      exact ⟨rfl, rfl⟩
    · have hr' := hr tp
      have ha' := ha tp
      rw [(hregisters tp).1, (hregisters tp).2] at hr'
      rw [(hacquires tp).1, (hacquires tp).2] at ha'
      rw [hself, show threadsAt after registers tp = _ from hr',
        show threadsAt after acquires tp = _ from ha']
      exact hentry e he
  have hread (hv : view after.manager = view s.manager)
      (hregisters : ∀ d, registers d next = 0 ∧ registers d (s.pc tp) = 0)
      (hacquires : ∀ d, acquires d next = 0 ∧ acquires d (s.pc tp) = 0)
      (hleft : left next = left (s.pc tp)) : Counted after := by
    apply hown (hv.trans (Function.update_eq_self tp _).symm) hregisters hacquires
    intro e he
    rw [hleft]
    exact h.counted tp e he
  have hwait {d : Ptr} {entry : Option Transaction}
      (hv : view after.manager = update (view s.manager) d entry) (hd : d < s.manager.fresh)
      (hnext : ∀ e, e ≠ d → registers e next = 0 ∧ acquires e next = 0)
      (hbefore : ∀ e, e ≠ d → registers e (s.pc tp) = 0 ∧ acquires e (s.pc tp) = 0)
      (hleft : left next = left (s.pc tp))
      (hentry : ∀ e, entry = some e →
        Matches e (threadsAt after registers d) (threadsAt after acquires d) (left (s.pc d))) :
      Counted after := by
    refine h.of_move hsafe hpc hfresh htp hv (fun e hne => ?_) (fun e he => ?_) (fun _ => hleft)
      (fun e he => ?_)
    · by_cases hed : e = d
      · exact hed ▸ hd
      · rw [(hnext e hed).1, (hnext e hed).2] at hne
        exact absurd rfl hne
    · rw [(hnext e he).1, (hnext e he).2, (hbefore e he).1, (hbefore e he).2]
      exact ⟨rfl, rfl⟩
    · have hl : left (after.pc d) = left (s.pc d) := by
        by_cases hdt : d = tp
        · subst d
          rw [hself, hleft]
        · rw [hpc, Function.update_of_ne hdt]
      rw [hl]
      exact hentry e he
  have hcounted := h.counted tp
  simp only [Registered] at hreg
  generalize hv : view after.manager = v at hmove
  generalize s.pc tp = pc at *
  cases hmove with
  | endWait hc => exact hread hv (fun _ => ⟨rfl, rfl⟩) (fun _ => ⟨rfl, rfl⟩) rfl
  | @seePending d rest c hc hs =>
      obtain ⟨t, ht, rfl⟩ := trans_of_view hc
      have hnone : left (s.pc d) = none := hreg t ht hs
      apply hwait (hv.trans (Function.update_eq_self d _).symm) (h.safe.bounded hc)
        (fun e he => ⟨if_neg (Ne.symm he), rfl⟩) (fun _ _ => ⟨rfl, rfl⟩) rfl
      intro e he
      have hold := h.counted d e he
      rw [hnone] at hold ⊢
      have hd := ha d
      simp only [acquires, Nat.add_zero] at hd
      exact ⟨hold.1, hd.trans hold.2⟩
  | seeFinal hc hs => exact hread hv (fun _ => ⟨rfl, rfl⟩) (fun _ => ⟨rfl, rfl⟩) rfl
  | @register d rest c hc =>
      apply hwait hv (h.safe.bounded hc) (fun e he => ⟨rfl, if_neg (Ne.symm he)⟩)
        (fun e he => ⟨if_neg (Ne.symm he), rfl⟩) rfl
      intro e he
      cases he
      have hold := h.counted d c hc
      have hd := ha d
      have hd' := hr d
      simp only [registers, acquires, if_true] at hd hd'
      cases hl : left (s.pc d) with
      | none =>
          rw [hl] at hold
          obtain ⟨hsem, hwaiting⟩ := hold
          exact ⟨hsem, by simp only; omega⟩
      | some n =>
          -- the owner has read waitcnt, so no thread can be about to register
          rw [hl] at hold
          have hzero := hold.1
          omega
  | @acquire d rest c hc hsem =>
      apply hwait hv (h.safe.bounded hc) (fun _ _ => ⟨rfl, rfl⟩)
        (fun e he => ⟨rfl, if_neg (Ne.symm he)⟩) rfl
      intro e he
      cases he
      have hold := h.counted d c hc
      have hd := ha d
      have hd' := hr d
      simp only [registers, acquires, if_true] at hd hd'
      cases hl : left (s.pc d) with
      | none =>
          rw [hl] at hold
          exact absurd hold.1 hsem
      | some n =>
          rw [hl] at hold
          obtain ⟨hregistering, hacquiring⟩ := hold
          refine ⟨by omega, ?_⟩
          simp only
          omega
  | endScan => exact hread hv (fun _ => ⟨rfl, rfl⟩) (fun _ => ⟨rfl, rfl⟩) rfl
  | seeAborted hc hs => exact hread hv (fun _ => ⟨rfl, rfl⟩) (fun _ => ⟨rfl, rfl⟩) rfl
  | seeOther hc hs => exact hread hv (fun _ => ⟨rfl, rfl⟩) (fun _ => ⟨rfl, rfl⟩) rfl
  | abortPending => exact hread hv (fun _ => ⟨rfl, rfl⟩) (fun _ => ⟨rfl, rfl⟩) rfl
  | abortOther hc hs => exact hread hv (fun _ => ⟨rfl, rfl⟩) (fun _ => ⟨rfl, rfl⟩) rfl
  | abortAgain hc hs => exact hread hv (fun _ => ⟨rfl, rfl⟩) (fun _ => ⟨rfl, rfl⟩) rfl
  | storeAborted hc =>
      apply hown hv (fun _ => ⟨rfl, rfl⟩) (fun _ => ⟨rfl, rfl⟩)
      intro e he
      cases he
      have hold := hcounted _ hc
      exact hold
  | snapshot hc =>
      apply hown (hv.trans (Function.update_eq_self tp _).symm) (fun _ => ⟨rfl, rfl⟩)
        (fun _ => ⟨rfl, rfl⟩)
      intro e he
      obtain rfl := Option.some.inj (hc.symm.trans he)
      obtain ⟨hsem, hwaiting⟩ := hcounted _ hc
      refine ⟨threadsAt_eq_zero hreg, ?_⟩
      omega
  | endCommit => exact hread hv (fun _ => ⟨rfl, rfl⟩) (fun _ => ⟨rfl, rfl⟩) rfl
  | endAbort => exact hread hv (fun _ => ⟨rfl, rfl⟩) (fun _ => ⟨rfl, rfl⟩) rfl
  | post hc =>
      apply hown hv (fun _ => ⟨rfl, rfl⟩) (fun _ => ⟨rfl, rfl⟩)
      intro e he
      cases he
      obtain ⟨hregistering, hacquiring⟩ := hcounted _ hc
      refine ⟨hregistering, ?_⟩
      simp only
      omega
  | count => exact hread hv (fun _ => ⟨rfl, rfl⟩) (fun _ => ⟨rfl, rfl⟩) rfl
  | storeCommitted hc =>
      apply hown hv (fun _ => ⟨rfl, rfl⟩) (fun _ => ⟨rfl, rfl⟩)
      intro e he
      cases he
      have hold := hcounted _ hc
      exact hold
  | release hc =>
      apply hown hv (fun _ => ⟨rfl, rfl⟩) (fun _ => ⟨rfl, rfl⟩)
      intro e he
      cases he
      have hold := hcounted _ hc
      exact hold
  | keep => exact hread hv (fun _ => ⟨rfl, rfl⟩) (fun _ => ⟨rfl, rfl⟩) rfl
  | free => exact hown hv (fun _ => ⟨rfl, rfl⟩) (fun _ => ⟨rfl, rfl⟩) (fun e he => nomatch he)

-- A step outside the calls: the threads stay where they are, and no semaphore
-- and no waitcnt changes.
theorem Counted.of_entries {s after : Threads} (h : Counted s) (hsafe : Safe after)
    (hpc : after.pc = s.pc) (hfresh : s.manager.fresh ≤ after.manager.fresh)
    (hat : ∀ f : Ptr → Pc → Nat, (∀ d, f d .adding = 0) → threadsAt after f = threadsAt s f)
    (hentry : ∀ d e, view after.manager d = some e →
      (s.manager.fresh ≤ d ∧ e.sem = 0 ∧ e.waitcnt = 0) ∨
      ∃ c, view s.manager d = some c ∧ e.sem = c.sem ∧ e.waitcnt = c.waitcnt) : Counted after := by
  refine ⟨hsafe, fun p d hne => ?_, fun d e he => ?_⟩
  · rw [hpc] at hne
    exact Nat.lt_of_lt_of_le (h.named p d hne) hfresh
  · rw [hpc, hat registers (fun _ => rfl), hat acquires (fun _ => rfl)]
    rcases hentry d e he with ⟨hle, hsem, hwaitcnt⟩ | ⟨c, hc, hsem, hwaitcnt⟩
    · -- nobody waits for a transaction that did not exist before
      have hadding := (h.safe.unborn d hle).2
      have hnobody : threadsAt s acquires d = 0 := by
        apply Finset.sum_eq_zero
        intro p _
        by_contra hne
        have hlt := h.named p d (by omega)
        exact Nat.not_lt.mpr hle hlt
      rw [hadding, hnobody]
      exact ⟨hsem, hwaitcnt.symm⟩
    · have hold := h.counted d c hc
      unfold Matches at hold ⊢
      rw [hsem, hwaitcnt]
      exact hold

theorem Counted.of_call {s : Threads} {tp : Ptr} {next : Pc} {t : Transaction} (h : Counted s)
    (hsafe : Safe (s.goto s.manager tp next)) (hadding : s.pc tp = .adding)
    (ht : s.manager.get tp = .ok t) (hnext : ∀ d, registers d next = 0 ∧ acquires d next = 0)
    (hleft : left next = none) : Counted (s.goto s.manager tp next) := by
  have htp := h.safe.bounded (view_of_get ht)
  have hr := threadsAt_move (goto_pc s s.manager tp next) rfl htp registers tp
  have ha := threadsAt_move (goto_pc s s.manager tp next) rfl htp acquires tp
  rw [hadding, (hnext tp).1] at hr
  rw [hadding, (hnext tp).2] at ha
  refine h.of_move hsafe (goto_pc _ _ _ _) rfl htp (Function.update_eq_self tp _).symm
    (fun d hne => ?_)
    (fun d _ => ?_) (fun hne => absurd rfl hne) (fun e he => ?_)
  · rw [(hnext d).1, (hnext d).2] at hne
    exact absurd rfl hne
  · rw [hadding]
    exact hnext d
  · have hold := h.counted tp e he
    rw [hadding] at hold
    rw [goto_pc, Function.update_self, hleft]
    exact ⟨hold.1, ha.trans hold.2⟩

theorem step_counted {s after : Threads} {a : Action} (h : Counted s) (howned : s.Owned a)
    (hreg : s.Registered a) (hstep : s.step a = .ok after) : Counted after := by
  have hsafe := step_safe h.safe howned hstep
  cases a with
  | advance tp => exact advance_counted h hreg hstep
  | create =>
      obtain ⟨⟨p, manager⟩, hcall, hstep⟩ := Lib.bind_ok hstep
      cases hstep
      obtain ⟨rfl, hf, hv⟩ := transCreate_ok hcall
      have hadding := (h.safe.unborn s.manager.fresh (Nat.le_refl _)).2
      refine h.of_entries hsafe rfl (hf ▸ Nat.le_succ _) (fun f hzero => ?_) (fun d e he => ?_)
      · funext d
        simp only [threadsAt, hf]
        rw [Finset.sum_range_succ, hadding, hzero, Nat.add_zero]
      · rw [hv] at he
        by_cases hd : d = s.manager.fresh
        · subst d
          rw [Function.update_self] at he
          cases he
          exact Or.inl ⟨Nat.le_refl _, rfl, rfl⟩
        · rw [Function.update_of_ne hd] at he
          exact Or.inr ⟨e, he, rfl, rfl⟩
  | addDependency tp dtp =>
      obtain ⟨manager, hcall, hstep⟩ := Lib.bind_ok hstep
      cases hstep
      obtain ⟨hf, hv⟩ := transAddDependency_ok hcall
      refine h.of_entries hsafe rfl (Nat.le_of_eq hf.symm) (fun f _ => ?_) (fun q e he => Or.inr ?_)
      · funext d
        simp only [threadsAt, hf]
      · rcases hv with hv | ⟨c, d, hc, hd, hne, hv⟩ <;> rw [hv] at he
        · exact ⟨e, he, rfl, rfl⟩
        · by_cases hqd : q = dtp
          · subst q
            rw [Function.update_self] at he
            cases he
            exact ⟨d, hd, rfl, rfl⟩
          · rw [Function.update_of_ne hqd] at he
            by_cases hqt : q = tp
            · subst q
              rw [Function.update_self] at he
              cases he
              exact ⟨c, hc, rfl, rfl⟩
            · rw [Function.update_of_ne hqt] at he
              exact ⟨e, he, rfl, rfl⟩
  | commit tp =>
      obtain ⟨t, ht, hstep⟩ := Lib.bind_ok hstep
      cases hstep
      exact h.of_call hsafe howned ht (fun _ => ⟨rfl, rfl⟩) rfl
  | abort tp =>
      obtain ⟨t, ht, hstep⟩ := Lib.bind_ok hstep
      cases hstep
      exact h.of_call hsafe howned ht (fun _ => ⟨rfl, rfl⟩) rfl

def Raceless (s : Threads) (a : Action) : Prop := s.Owned a ∧ s.Registered a

theorem run_counted {s : Threads} {actions : List Action}
    (hrun : Lib.Steps step Raceless start actions s) : Counted s := by
  apply hrun.invariant Counted (fun _ _ _ h hguard hstep => step_counted h hguard.1 hguard.2 hstep)
  refine ⟨safe_start, fun p d hne => absurd rfl hne, fun d c hc => ?_⟩
  obtain ⟨t, ht, rfl⟩ := trans_of_view hc
  simp only [start, transInit] at ht
  split at ht
  · cases ht
    exact ⟨rfl, rfl⟩
  · cases ht

-- No wakeup is lost in a run whose steps do not race on waitcnt.
theorem not_lostWakeup {s : Threads} {actions : List Action}
    (hrun : Lib.Steps step Raceless start actions s) : ¬LostWakeup s := by
  rintro ⟨p, d, rest, t, hp, ht, -, hleft, hsem⟩
  have h := run_counted hrun
  have hmatch := h.counted d _ (view_of_trans ht)
  rw [hleft] at hmatch
  have hcore : (core t).sem = t.sem := rfl
  have hnone : threadsAt s acquires d = 0 := by
    have hpaid := hmatch.2
    omega
  have hp' : p < s.manager.fresh := by
    by_contra hle
    rw [(h.safe.unborn p (Nat.not_lt.mp hle)).2] at hp
    cases hp
  have hone := Finset.sum_eq_zero_iff.mp hnone p (Finset.mem_range.mpr hp')
  simp [hp, acquires] at hone

-- The second transaction registers before the first one reads its waitcnt.
theorem not_lostWakeup_of_registered :
    ∃ s, Lib.Steps step Raceless start
        [.create, .create, .addDependency 2 1, .commit 2, .advance 2, .advance 2, .abort 1,
          .advance 1, .advance 1, .advance 1, .advance 1] s ∧
      s.pc 2 = .acquire 1 [] ∧ ¬LostWakeup s := by
  obtain ⟨s, hrun, hpc⟩ : ∃ s, Lib.Steps step Raceless start
      [.create, .create, .addDependency 2 1, .commit 2, .advance 2, .advance 2, .abort 1,
        .advance 1, .advance 1, .advance 1, .advance 1] s ∧ s.pc 2 = .acquire 1 [] := by
    refine ⟨_, .cons ⟨trivial, trivial⟩ rfl <| .cons ⟨trivial, trivial⟩ rfl <|
      .cons ⟨rfl, trivial⟩ rfl <| .cons ⟨rfl, trivial⟩ rfl <|
      .cons ⟨trivial, fun _ _ _ => rfl⟩ rfl <| .cons ⟨trivial, trivial⟩ rfl <|
      .cons ⟨rfl, trivial⟩ rfl <| .cons ⟨trivial, trivial⟩ rfl <| .cons ⟨trivial, trivial⟩ rfl <|
      .cons ⟨trivial, ?_⟩ rfl <| .cons ⟨trivial, trivial⟩ rfl <| .nil _, rfl⟩
    intro q rest
    by_cases h₁ : q = 1
    · subst q
      exact nofun
    by_cases h₂ : q = 2
    · subst q
      exact nofun
    simp [goto, start, h₁, h₂]
  exact ⟨s, hrun, hpc, not_lostWakeup hrun⟩

-- The second transaction finds the first one pending. The first one then reads
-- its waitcnt, aborts and posts nothing, and the second one registers too late.
theorem lostWakeup_of_late_registration :
    ∃ s, Lib.Steps step Owned start
        ([.create, .create, .addDependency 2 1, .commit 2, .advance 2, .abort 1] ++
          List.replicate 6 (.advance 1) ++ [.advance 2]) s ∧ LostWakeup s := by
  obtain ⟨s, t, hrun, hpc, ht, hst, hleft, hsem⟩ : ∃ (s : Threads) (t : Transaction),
      Lib.checkedRun step Owned start
        ([.create, .create, .addDependency 2 1, .commit 2, .advance 2, .abort 1] ++
          List.replicate 6 (.advance 1) ++ [.advance 2]) = some s ∧
      s.pc 2 = .acquire 1 [] ∧ s.manager.trans 1 = some t ∧ t.status ≠ .pending ∧
      left (s.pc 1) = some 0 ∧ t.sem = 0 := ⟨_, _, rfl, rfl, rfl, by decide, rfl, rfl⟩
  exact ⟨s, .of_checkedRun hrun, 2, 1, [], t, hpc, ht, hst, hleft, hsem⟩

end CSE320.Xacto.Threads
