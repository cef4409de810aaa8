import CSE320.Lib.Progress
import CSE320.Xacto.Threads.Live
import CSE320.Xacto.Threads.Wakeup

namespace CSE320.Xacto.Threads

open Function (update)

-- Runs without a race on waitcnt in which no count overflows.
def Careful (s : Threads) (a : Action) : Prop := s.Raceless a ∧ s.Counting a

def finishes : Action → Bool
  | .commit _ | .abort _ | .advance _ => true
  | _ => false

-- The steps that are left when no transaction and no dependency is added any more.
def Finishing (s : Threads) (a : Action) : Prop := s.Careful a ∧ finishes a = true

def DependsOn (m : Manager) (d p : Ptr) : Prop := d ∈ dependsOf m p

def Finished (s : Threads) : Prop :=
  ∀ p, p ≠ transList → p < s.manager.fresh → ∃ v, s.pc p = .done v

-- Two for each thread that is counted as a waiter: one for the V and one for the
-- way back to the loop. The second loop goes over the whole set once more.
def weight (entry : Option Transaction) (pc : Pc) : Nat :=
  let waiters := 2 * (entry.map Transaction.waitcnt).getD 0
  let entries := ((entry.map Transaction.depends).getD []).length
  match pc with
  | .adding => waiters + 6 * entries + 10
  | .register _ rest => waiters + 5 * rest.length + entries + 13
  | .acquire _ rest => waiters + 5 * rest.length + entries + 10
  | .waiting rest => waiters + 5 * rest.length + entries + 9
  | .scanning rest => waiters + rest.length + 8
  | .aborting => waiters + 7
  | .abortingFinal | .storeAborted => waiters + 6
  | .snapshot _ => waiters + 5
  | .posting _ n => 2 * n + 4
  | .counting _ n => 2 * (n - 1) + 5
  | .storeCommitted => 3
  | .releasing _ => 2
  | .freeing _ => 1
  | .done _ => 0

-- An upper bound for the steps that the owners still have to make.
def cost (s : Threads) : Nat :=
  ∑ p ∈ Finset.range s.manager.fresh, weight (view s.manager p) (s.pc p)

section

variable {s after : Threads} {tp p q d : Ptr} {next : Pc} {entry : Option Transaction} {a : Action}

-- A step moves one owner and may change the entry of one transaction.
theorem cost_lt (hpc : after.pc = update s.pc tp next)
    (hfresh : after.manager.fresh = s.manager.fresh) (htp : tp < s.manager.fresh)
    (hq : q < s.manager.fresh) (hview : view after.manager = update (view s.manager) q entry)
    (hlt : weight (view after.manager tp) next + weight entry (s.pc q) <
      weight (view after.manager tp) (s.pc tp) + weight (view s.manager q) (s.pc q)) :
    cost after < cost s := by
  have hentry := Lib.sum_range_change (fun p => weight (view after.manager p) (s.pc p))
    (fun p => weight (view s.manager p) (s.pc p)) hq
    (fun p hp => by rw [hview, Function.update_of_ne hp])
  have howner := Lib.sum_range_change (fun p => weight (view after.manager p) (after.pc p))
    (fun p => weight (view after.manager p) (s.pc p)) htp
    (fun p hp => by rw [hpc, Function.update_of_ne hp])
  have hself : view after.manager q = entry := by rw [hview, Function.update_self]
  have hnext : after.pc tp = next := by rw [hpc, Function.update_self]
  simp only [hself] at hentry
  simp only [hnext] at howner
  unfold cost
  rw [hfresh]
  omega

-- Every step of an owner lowers the bound.
theorem advance_cost (h : Safe s) (hstep : s.advance tp = .ok after) : cost after < cost s := by
  obtain ⟨next, hpc, hfresh, hmove⟩ := advance_ok hstep
  have htp : tp < s.manager.fresh := by
    by_contra hle
    rw [(h.unborn tp (Nat.not_lt.mp hle)).2] at hmove
    cases hmove
  have hread (hv : view after.manager = view s.manager)
      (hlt : weight (view s.manager tp) next < weight (view s.manager tp) (s.pc tp)) :
      cost after < cost s := by
    apply cost_lt hpc hfresh htp htp (hv.trans (Function.update_eq_self tp _).symm)
    rw [hv]
    exact Nat.add_lt_add_right hlt _
  have hwrite {q : Ptr} {c e : Transaction} (hc : view s.manager q = some c)
      (hv : view after.manager = update (view s.manager) q (some e))
      (hsame : ∀ pc, weight (some e) pc = weight (some c) pc)
      (hlt : ∀ entry, weight entry next < weight entry (s.pc tp)) : cost after < cost s := by
    apply cost_lt hpc hfresh htp (h.bounded hc) hv
    rw [hc, hsame]
    exact Nat.add_lt_add_right (hlt _) _
  generalize hv : view after.manager = v at hmove
  generalize hp : s.pc tp = pc at *
  cases hmove with
  | endWait hc =>
      apply hread hv
      rw [hc]
      simp [weight]
  | seePending hc hs =>
      apply hread hv
      simp only [weight, List.length_cons]
      omega
  | seeFinal hc hs =>
      apply hread hv
      simp only [weight, List.length_cons]
      omega
  | @register d rest c hc =>
      apply cost_lt hpc hfresh htp (h.bounded hc) hv
      rw [hc, hp]
      -- the thread that registers pays for the V that it will need
      have hthree (entry : Option Transaction) :
          weight entry (.acquire d rest) + 3 = weight entry (.register d rest) := by
        simp only [weight]
      have htwo (pc : Pc) : weight (some { c with waitcnt := c.waitcnt + 1 }) pc ≤
          weight (some c) pc + 2 := by
        cases pc <;> simp only [weight, Option.map_some, Option.getD_some] <;> omega
      have hmine := hthree (view after.manager tp)
      have hother := htwo (s.pc d)
      omega
  | acquire hc hsem =>
      apply hwrite hc hv fun _ => rfl
      intro entry
      simp only [weight]
      omega
  | endScan =>
      apply hread hv
      simp [weight]
  | seeAborted hc hs =>
      apply hread hv
      simp only [weight, List.length_cons]
      omega
  | seeOther hc hs =>
      apply hread hv
      simp only [weight, List.length_cons]
      omega
  | abortPending =>
      apply hread hv
      simp [weight]
  | abortOther hc hs =>
      apply hread hv
      simp [weight]
  | abortAgain hc hs =>
      apply hread hv
      simp [weight]
  | storeAborted hc =>
      apply hwrite hc hv fun _ => rfl
      simp [weight]
  | snapshot hc =>
      apply hread hv
      rw [hc]
      simp [weight]
  | endCommit =>
      apply hread hv
      simp [weight]
  | endAbort =>
      apply hread hv
      simp [weight]
  | post hc =>
      apply hwrite hc hv fun _ => rfl
      intro entry
      simp only [weight]
      omega
  | count =>
      apply hread hv
      simp only [weight]
      omega
  | storeCommitted hc =>
      apply hwrite hc hv fun _ => rfl
      simp [weight]
  | release hc =>
      apply hwrite hc hv fun _ => rfl
      simp [weight]
  | keep =>
      apply hread hv
      simp [weight]
  | free =>
      apply cost_lt hpc hfresh htp htp hv
      rw [hp]
      simp only [weight]
      omega

theorem call_cost {t : Transaction} (h : Safe s) (hadding : s.pc tp = .adding)
    (ht : s.manager.get tp = .ok t)
    (hlt : weight (some (core t)) next < weight (some (core t)) .adding) :
    cost (s.goto s.manager tp next) < cost s := by
  have hc := view_of_get ht
  have htp := h.bounded hc
  have hview : view (s.goto s.manager tp next).manager tp = some (core t) := hc
  apply cost_lt (goto_pc _ _ _ _) rfl htp htp (Function.update_eq_self tp _).symm
  rw [hview, hadding, hc]
  exact Nat.add_lt_add_right hlt _

theorem finishing_cost (h : Safe s) (hguard : s.Finishing a) (hstep : s.step a = .ok after) :
    cost after < cost s := by
  obtain ⟨⟨⟨howned, -⟩, -⟩, hfinishes⟩ := hguard
  cases a with
  | create => cases hfinishes
  | addDependency tp dtp => cases hfinishes
  | advance tp => exact advance_cost h hstep
  | commit tp =>
      obtain ⟨t, ht, hstep⟩ := Lib.bind_ok hstep
      obtain rfl := Except.ok.inj hstep
      apply call_cost h howned ht
      simp only [weight, Option.map_some, Option.getD_some, core]
      omega
  | abort tp =>
      obtain ⟨t, ht, hstep⟩ := Lib.bind_ok hstep
      obtain rfl := Except.ok.inj hstep
      apply call_cost h howned ht
      simp only [weight]
      omega

-- A step of an owner leaves the dependency sets as they are.
theorem Moves.depends {pc : Pc} {v : Ptr → Option Transaction} {c : Transaction}
    (h : Moves s tp pc next v) (hc : v p = some c) :
    ∃ e, view s.manager p = some e ∧ c.depends = e.depends := by
  have hupdate {q : Ptr} {e e' : Transaction} (he : view s.manager q = some e)
      (hc : update (view s.manager) q (some e') p = some c) (hsame : e'.depends = e.depends) :
      ∃ e, view s.manager p = some e ∧ c.depends = e.depends := by
    by_cases hp : p = q
    · subst p
      rw [Function.update_self] at hc
      exact ⟨e, he, Option.some.inj hc ▸ hsame⟩
    · rw [Function.update_of_ne hp] at hc
      exact ⟨c, hc, rfl⟩
  cases h with
  | register he => exact hupdate he hc rfl
  | acquire he hsem => exact hupdate he hc rfl
  | storeAborted he => exact hupdate he hc rfl
  | post he => exact hupdate he hc rfl
  | storeCommitted he => exact hupdate he hc rfl
  | release he => exact hupdate he hc rfl
  | free =>
      by_cases hp : p = tp
      · rw [hp, Function.update_self] at hc
        cases hc
      · rw [Function.update_of_ne hp] at hc
        exact ⟨c, hc, rfl⟩
  | _ => exact ⟨c, hc, rfl⟩

-- A finishing step makes no dependency.
theorem finishing_depends (hguard : s.Finishing a) (hstep : s.step a = .ok after)
    (hd : d ∈ dependsOf after.manager p) : d ∈ dependsOf s.manager p := by
  obtain ⟨-, hfinishes⟩ := hguard
  cases a with
  | create => cases hfinishes
  | addDependency tp dtp => cases hfinishes
  | commit tp =>
      obtain ⟨t, ht, hstep⟩ := Lib.bind_ok hstep
      obtain rfl := Except.ok.inj hstep
      exact hd
  | abort tp =>
      obtain ⟨t, ht, hstep⟩ := Lib.bind_ok hstep
      obtain rfl := Except.ok.inj hstep
      exact hd
  | advance tp =>
      obtain ⟨next, -, -, hmove⟩ := advance_ok hstep
      cases hc : view after.manager p with
      | none =>
          rw [dependsOf_of_none hc] at hd
          exact absurd hd List.not_mem_nil
      | some c =>
          obtain ⟨e, he, hsame⟩ := hmove.depends hc
          rw [dependsOf_of_view hc, hsame] at hd
          rw [dependsOf_of_view he]
          exact hd

theorem finishing_fresh (hguard : s.Finishing a) (hstep : s.step a = .ok after) :
    after.manager.fresh = s.manager.fresh := by
  obtain ⟨-, hfinishes⟩ := hguard
  cases a with
  | create => cases hfinishes
  | addDependency tp dtp => cases hfinishes
  | commit tp =>
      obtain ⟨t, ht, hstep⟩ := Lib.bind_ok hstep
      obtain rfl := Except.ok.inj hstep
      rfl
  | abort tp =>
      obtain ⟨t, ht, hstep⟩ := Lib.bind_ok hstep
      obtain rfl := Except.ok.inj hstep
      rfl
  | advance tp =>
      obtain ⟨next, -, hfresh, -⟩ := advance_ok hstep
      exact hfresh

-- What holds while the owners finish.
structure Closing (s : Threads) : Prop where
  held : Held s
  counted : Counted s
  acyclic : WellFounded (DependsOn s.manager)

theorem step_closing (h : Closing s) (hguard : s.Finishing a) (hstep : s.step a = .ok after) :
    Closing after := by
  obtain ⟨⟨⟨howned, hreg⟩, hcounting⟩, -⟩ := id hguard
  have hsub : Subrelation (DependsOn after.manager) (DependsOn s.manager) :=
    fun hd => finishing_depends hguard hstep hd
  exact ⟨step_held h.held ⟨howned, hcounting⟩ hstep, step_counted h.counted howned hreg hstep,
    hsub.wf h.acyclic⟩

theorem Closing.not_stuck_of_advance (h : Closing s) (hinside : Inside (s.pc p))
    (hreg : s.Registered (.advance p)) (hwait : ∀ d rest, s.pc p ≠ .acquire d rest) :
    ¬Lib.Stuck step Finishing s := by
  intro hstuck
  rcases h.held.advance hinside with ⟨after, hstep⟩ | ⟨-, d, rest, -, hpc, -⟩
  · exact hstuck (.advance p) ⟨⟨⟨trivial, hreg⟩, trivial⟩, rfl⟩ after hstep
  · exact hwait d rest hpc

theorem Closing.trans_some (h : Closing s) (hp : p ≠ transList) (hlt : p < s.manager.fresh)
    (hdone : ∀ v, s.pc p ≠ .done v) : ∃ t, s.manager.trans p = some t := by
  obtain ⟨c, hc⟩ := Option.isSome_iff_exists.mp (h.held.present p hp hlt hdone)
  obtain ⟨t, ht, -⟩ := trans_of_view hc
  exact ⟨t, ht⟩

-- An owner that has read its waitcnt waits for nobody.
theorem Closing.not_stuck_of_left (h : Closing s) (hleft : left (s.pc p) ≠ none)
    (hdone : ∀ v, s.pc p ≠ .done v) : ¬Lib.Stuck step Finishing s := by
  apply h.not_stuck_of_advance (p := p) <;> cases hpc : s.pc p <;>
    simp_all [left, Inside, Registered]

-- As long as an owner is not done, some owner can go on: the one that it waits for,
-- or one further down in the order of the dependencies.
theorem Closing.not_stuck (h : Closing s) (hp : p ≠ transList) (hlt : p < s.manager.fresh)
    (hdone : ∀ v, s.pc p ≠ .done v) : ¬Lib.Stuck step Finishing s := by
  induction p using h.acyclic.induction with
  | _ p ih =>
  have hinside {pc : Pc} (hpc : s.pc p = pc) (hin : Inside pc) : Inside (s.pc p) := hpc ▸ hin
  have hgo {pc : Pc} (hpc : s.pc p = pc) (hin : Inside pc) (hreg : s.Registered (.advance p))
      (hwait : ∀ d rest, pc ≠ .acquire d rest) : ¬Lib.Stuck step Finishing s :=
    h.not_stuck_of_advance (hinside hpc hin) hreg fun d rest => hpc ▸ hwait d rest
  cases hpc : s.pc p with
  | done v => exact absurd hpc (hdone v)
  | adding =>
      obtain ⟨t, ht⟩ := h.trans_some hp hlt hdone
      intro hstuck
      refine hstuck (.commit p) ⟨⟨⟨hpc, trivial⟩, hp⟩, rfl⟩ (s.goto s.manager p
        (.waiting t.depends)) ?_
      simp only [step, Manager.get_of_trans ht]
      rfl
  | acquire d rest =>
      have hd : d ∈ ahead (s.pc p) := by
        rw [hpc]
        exact List.mem_cons_self
      have hdep := h.held.looked p d hd
      obtain ⟨hne, hlive⟩ := h.held.named p d hdep
      obtain ⟨c, hc⟩ := Option.isSome_iff_exists.mp hlive
      by_cases hdd : ∃ v, s.pc d = .done v
      · -- the owner of d has done every V, and one of them is for p
        obtain ⟨v, hv⟩ := hdd
        intro hstuck
        rcases h.held.advance (hinside hpc trivial) with ⟨after, hstep⟩ | ⟨-, e, l, t, he, ht, hsem⟩
        · have hreg : s.Registered (.advance p) := by simp only [Registered, hpc]
          exact hstuck (.advance p) ⟨⟨⟨trivial, hreg⟩, trivial⟩, rfl⟩ after hstep
        · rw [hpc] at he
          obtain ⟨rfl, rfl⟩ := Pc.acquire.inj he
          have hmatch := h.counted.counted d _ (view_of_trans ht)
          rw [hv] at hmatch
          have hcore : (core t).sem = t.sem := rfl
          have hnone : threadsAt s acquires d = 0 := by
            have hpaid := hmatch.2
            omega
          have hone := Finset.sum_eq_zero_iff.mp hnone p (Finset.mem_range.mpr hlt)
          simp [hpc, acquires] at hone
      · exact ih d hdep hne (h.held.safe.bounded hc) fun v hv => hdd ⟨v, hv⟩
  | snapshot v =>
      by_cases hreg : s.Registered (.advance p)
      · exact hgo hpc trivial hreg (by simp)
      · -- a thread is about to register with p
        simp only [Registered, hpc, not_forall, not_not] at hreg
        obtain ⟨q, rest, hq⟩ := hreg
        exact h.not_stuck_of_advance (p := q) (by rw [hq]; trivial)
          (by simp only [Registered, hq]) (by simp [hq])
  | waiting rest =>
      by_cases hreg : s.Registered (.advance p)
      · exact hgo hpc trivial hreg (by simp)
      · -- the owner of d is between its look at waitcnt and the end of its call
        cases rest with
        | nil => simp [Registered, hpc] at hreg
        | cons d rest =>
            simp only [Registered, hpc, not_forall] at hreg
            obtain ⟨t, ht, hs, hleft⟩ := hreg
            refine h.not_stuck_of_left hleft fun v hv => ?_
            have hstatus := h.held.safe.status d _ (view_of_trans ht)
            rw [hv, show (core t).status = t.status from rfl, hs] at hstatus
            cases v <;> cases hstatus
  | register d rest => exact hgo hpc trivial (by simp only [Registered, hpc]) (by simp)
  | scanning rest => exact hgo hpc trivial (by simp only [Registered, hpc]) (by simp)
  | aborting => exact hgo hpc trivial (by simp only [Registered, hpc]) (by simp)
  | abortingFinal => exact hgo hpc trivial (by simp only [Registered, hpc]) (by simp)
  | storeAborted => exact hgo hpc trivial (by simp only [Registered, hpc]) (by simp)
  | posting v n => exact hgo hpc trivial (by simp only [Registered, hpc]) (by simp)
  | counting v n => exact hgo hpc trivial (by simp only [Registered, hpc]) (by simp)
  | storeCommitted => exact hgo hpc trivial (by simp only [Registered, hpc]) (by simp)
  | releasing v => exact hgo hpc trivial (by simp only [Registered, hpc]) (by simp)
  | freeing v => exact hgo hpc trivial (by simp only [Registered, hpc]) (by simp)

theorem finished_of_stuck (h : Closing s) (hstuck : Lib.Stuck step Finishing s) : Finished s := by
  intro p hp hlt
  by_contra hdone
  exact h.not_stuck hp hlt (fun v hv => hdone ⟨v, hv⟩) hstuck

theorem Closing.stuck_of_finished (h : Closing s) (hfinished : Finished s) :
    Lib.Stuck step Finishing s := by
  rintro a ⟨⟨⟨howned, -⟩, hcounting⟩, hfinishes⟩ after hstep
  -- nobody is inside a call, and nobody is left to make one
  have hcall {p : Ptr} {t : Transaction} (hp : p ≠ transList) (ht : s.manager.get p = .ok t)
      (hadding : s.pc p = .adding) : False := by
    obtain ⟨v, hv⟩ := hfinished p hp (h.held.safe.bounded (view_of_get ht))
    rw [hadding] at hv
    cases hv
  cases a with
  | create => cases hfinishes
  | addDependency tp dtp => cases hfinishes
  | commit tp =>
      obtain ⟨t, ht, -⟩ := Lib.bind_ok hstep
      exact hcall hcounting ht howned
  | abort tp =>
      obtain ⟨t, ht, -⟩ := Lib.bind_ok hstep
      exact hcall hcounting ht howned
  | advance tp =>
      have hinside := inside_of_advance hstep
      have htp : tp ≠ transList := by
        rintro rfl
        rw [h.held.idle] at hinside
        exact hinside
      have hlt : tp < s.manager.fresh := by
        by_contra hle
        rw [(h.held.safe.unborn tp (Nat.not_lt.mp hle)).2] at hinside
        exact hinside
      obtain ⟨v, hv⟩ := hfinished tp htp hlt
      rw [hv] at hinside
      exact hinside

theorem run_closing {actions : List Action} (hrun : Lib.Steps step Careful start actions s)
    (hacyclic : WellFounded (DependsOn s.manager)) : Closing s := by
  have hraceless : Lib.Steps step Raceless start actions s := hrun.weaken fun _ _ h => h.1
  have hlegal : Lib.Steps step Legal start actions s := hrun.weaken fun _ _ h => ⟨h.1.1, h.2⟩
  exact ⟨run_held hlegal, run_counted hraceless, hacyclic⟩

theorem wellFounded_of_pair {m : Manager} (htwo : dependsOf m 2 = [1])
    (hother : ∀ p, p ≠ 2 → dependsOf m p = []) : WellFounded (DependsOn m) := by
  refine Subrelation.wf (r := (· < ·)) (fun {d p} hd => ?_) Nat.lt_wfRel.wf
  by_cases hp : p = 2
  · rw [DependsOn, hp, htwo, List.mem_singleton] at hd
    rw [hp, hd]
    exact Nat.one_lt_two
  · rw [DependsOn, hother p hp] at hd
    exact absurd hd List.not_mem_nil

end

-- Once the dependencies are added, and none of them in a circle, the calls of
-- trans_commit and trans_abort end. However the owners take turns, they make no
-- more steps than the bound, and when none can go on all of them are done.
theorem calls_end {s : Threads} {actions : List Action}
    (hrun : Lib.Steps step Careful start actions s)
    (hacyclic : WellFounded (DependsOn s.manager)) :
    (∀ more after, Lib.Steps step Finishing s more after →
      more.length ≤ cost s ∧ (Lib.Stuck step Finishing after → Finished after)) ∧
    ∃ more after, Lib.Steps step Finishing s more after ∧ Finished after := by
  have hs := run_closing hrun hacyclic
  have hpres (s : Threads) (a : Action) (next : Threads) (h : Closing s) (hguard : s.Finishing a)
      (hstep : s.step a = .ok next) : Closing next := step_closing h hguard hstep
  have hdrop (s : Threads) (a : Action) (next : Threads) (h : Closing s) (hguard : s.Finishing a)
      (hstep : s.step a = .ok next) : cost next < cost s :=
    finishing_cost h.held.safe hguard hstep
  refine ⟨fun more after hmore => ⟨?_, fun hstuck => ?_⟩, ?_⟩
  · exact Nat.le_of_add_right_le (hmore.length_le Closing cost hpres hdrop hs)
  · exact finished_of_stuck (hmore.invariant Closing hpres hs) hstuck
  · obtain ⟨more, after, hmore, hstuck⟩ := Lib.exists_stuck Closing cost hpres hdrop hs
    exact ⟨more, after, hmore, finished_of_stuck (hmore.invariant Closing hpres hs) hstuck⟩

-- Two transactions, of which the second depends on the first.
theorem calls_end_of_dependent : ∃ s, Lib.Steps step Careful start
      [.create, .create, .addDependency 2 1] s ∧ dependsOf s.manager 2 = [1] ∧ cost s = 36 ∧
    (∀ more after, Lib.Steps step Finishing s more after →
      more.length ≤ cost s ∧ (Lib.Stuck step Finishing after → Finished after)) ∧
    ∃ more after, Lib.Steps step Finishing s more after ∧ Finished after := by
  obtain ⟨s, hrun, htwo, hother, hcost⟩ : ∃ s, Lib.Steps step Careful start
      [.create, .create, .addDependency 2 1] s ∧ dependsOf s.manager 2 = [1] ∧
      (∀ p, p ≠ 2 → dependsOf s.manager p = []) ∧ cost s = 36 := by
    refine ⟨_, .cons ⟨⟨trivial, trivial⟩, trivial⟩ rfl <|
      .cons ⟨⟨trivial, trivial⟩, trivial⟩ rfl <|
      .cons ⟨⟨rfl, trivial⟩, Nat.succ_ne_zero _, Nat.succ_ne_zero _, fun t ht => ?_⟩ rfl <|
      .nil _, rfl, fun p hp => ?_, rfl⟩
    · obtain rfl := Option.some.inj ht
      decide
    · by_cases hone : p = 1
      · rw [hone]
        rfl
      · by_cases hzero : p = 0
        · rw [hzero]
          rfl
        · apply dependsOf_of_none
          simp [view, Manager.set, start, transInit, transList, hone, hzero, hp]
  exact ⟨s, hrun, htwo, hcost, calls_end hrun (wellFounded_of_pair htwo hother)⟩

end CSE320.Xacto.Threads
