import CSE320.Xacto.Dependency
import CSE320.Xacto.Threads.Progress

namespace CSE320.Xacto.Threads

open Function (update)

-- The client has added d to the set of p.
def Added (past : List Action) (d p : Ptr) : Prop := Action.addDependency p d ∈ past

-- The calls of the clients. What is left of a run is how the owners take turns.
def ofClient : Action → Bool
  | .advance _ => false
  | _ => true

-- The owner is in one of the loops of trans_commit.
def Decides : Pc → Prop
  | .waiting _ | .register _ _ | .acquire _ _ | .scanning _ => True
  | _ => False

-- The owner has entered trans_abort.
def Aborts : Pc → Prop
  | .aborting | .abortingFinal | .storeAborted => True
  | pc => status pc = .aborted

-- What the positions of the owners say about the calls that have been made.
structure Told (past : List Action) (s : Threads) : Prop where
  held : Held s
  added : ∀ p c, view s.manager p = some c → ∀ d, d ∈ c.depends ↔ Added past d p
  named : ∀ p d, Added past d p → p < s.manager.fresh
  adding : ∀ p, s.pc p = .adding ↔ .commit p ∉ past ∧ .abort p ∉ past
  once : ∀ p, .commit p ∈ past → .abort p ∉ past
  decides : ∀ p, Decides (s.pc p) → .commit p ∈ past
  commits : ∀ p, Commits (s.pc p) → .commit p ∈ past ∧ ∀ d, Added past d p → Commits (s.pc d)
  aborts : ∀ p, Aborts (s.pc p) → ∃ q, Relation.ReflTransGen (Added past) q p ∧ .abort q ∈ past

section

variable {past : List Action} {s after : Threads} {tp dtp p d : Ptr} {pc next : Pc} {m : Manager}
  {v : Ptr → Option Transaction} {a : Action} {verdict : Verdict}

@[simp] theorem added_append (past : List Action) (a : Action) (d p : Ptr) :
    Added (past ++ [a]) d p ↔ Added past d p ∨ a = .addDependency p d := by
  simp [Added, eq_comm]

theorem Moves.not_adding (h : Moves s tp pc next v) : pc ≠ .adding ∧ next ≠ .adding := by
  cases h <;> simp

theorem Moves.decides (h : Moves s tp pc next v) (hnext : Decides next) : Decides pc := by
  cases h <;> simp_all [Decides]

-- An owner decides to commit at the end of the second loop.
theorem Moves.commits_from (h : Moves s tp pc next v) (hnext : Commits next) :
    Commits pc ∨ pc = .scanning [] := by
  cases h <;> simp_all [Commits]

-- An owner enters trans_abort from the second loop when it finds an aborted dependency.
theorem Moves.aborts_from (h : Moves s tp pc next v) (hnext : Aborts next) :
    Aborts pc ∨ ∃ d rest c, pc = .scanning (d :: rest) ∧ view s.manager d = some c ∧
      c.status = .aborted := by
  cases h with
  | seeAborted hc hs => exact Or.inr ⟨_, _, _, rfl, hc, hs⟩
  | _ => simp_all [Aborts, Threads.status, Verdict.status]

theorem aborts_of_status (h : status pc = .aborted) : Aborts pc := by
  cases pc <;> simp_all [Aborts, Threads.status]

-- More calls do not take a reason to abort away.
theorem reason_append (a : Action)
    (h : ∃ q, Relation.ReflTransGen (Added past) q p ∧ .abort q ∈ past) :
    ∃ q, Relation.ReflTransGen (Added (past ++ [a])) q p ∧ .abort q ∈ past ++ [a] := by
  obtain ⟨q, hpath, hq⟩ := h
  have hmono (d e : Ptr) (hd : Added past d e) : Added (past ++ [a]) d e :=
    (added_append past a d e).mpr (Or.inl hd)
  exact ⟨q, Relation.ReflTransGen.mono hmono _ _ hpath, List.mem_append_left _ hq⟩

theorem advance_told (h : Told past s) (hstep : s.advance tp = .ok after) :
    Told (past ++ [.advance tp]) after := by
  have hheld := advance_held h.held hstep
  obtain ⟨next, hpc, hfresh, hmove⟩ := advance_ok hstep
  have hadded (d p : Ptr) : Added (past ++ [.advance tp]) d p ↔ Added past d p := by simp
  have hcommit (p : Ptr) : .commit p ∈ past ++ [.advance tp] ↔ .commit p ∈ past := by simp
  have habort (p : Ptr) : .abort p ∈ past ++ [.advance tp] ↔ .abort p ∈ past := by simp
  have hself : after.pc tp = next := by rw [hpc, Function.update_self]
  have hother {p : Ptr} (hp : p ≠ tp) : after.pc p = s.pc p := by
    rw [hpc, Function.update_of_ne hp]
  have hmono {P : Pc → Prop} (hP : P (s.pc tp) → P next) (p : Ptr) (hp : P (s.pc p)) :
      P (after.pc p) := by
    by_cases he : p = tp
    · subst p
      rw [hself]
      exact hP hp
    · rw [hother he]
      exact hp
  have hcommits := hmono (P := Commits) hmove.commits
  -- the owner of tp has seen every dependency go on to commit
  have hnow (hnext : Commits next) :
      .commit tp ∈ past ∧ ∀ d, Added past d tp → Commits (s.pc d) := by
    rcases hmove.commits_from hnext with hold | hscan
    · exact h.commits tp hold
    · refine ⟨h.decides tp (by rw [hscan]; trivial), fun d hd => ?_⟩
      have hlt := h.named tp d hd
      have hne : tp ≠ transList := by
        rintro rfl
        rw [h.held.idle] at hscan
        cases hscan
      have hsome := h.held.present tp hne hlt fun v hv => by rw [hv] at hscan; cases hscan
      obtain ⟨c, hc⟩ := Option.isSome_iff_exists.mp hsome
      have hpassed := h.held.safe.passed tp c hc
      rw [hscan] at hpassed
      exact ((hpassed d ((h.added tp c hc d).mpr hd)).2).resolve_left List.not_mem_nil
  refine ⟨hheld, fun p c hc d => ?_, fun p d hd => ?_, fun p => ?_, fun p hp => ?_,
    fun p hp => ?_, fun p hp => ?_, fun p hp => ?_⟩
  · obtain ⟨e, he, hsame⟩ := hmove.depends hc
    rw [hsame, hadded]
    exact h.added p e he d
  · rw [hfresh]
    exact h.named p d ((hadded d p).mp hd)
  · rw [hcommit, habort, ← h.adding p]
    by_cases he : p = tp
    · subst p
      rw [hself]
      exact iff_of_false hmove.not_adding.2 hmove.not_adding.1
    · rw [hother he]
  · rw [habort]
    exact h.once p ((hcommit p).mp hp)
  · rw [hcommit]
    by_cases he : p = tp
    · subst p
      rw [hself] at hp
      exact h.decides tp (hmove.decides hp)
    · rw [hother he] at hp
      exact h.decides p hp
  · rw [hcommit]
    have hall : .commit p ∈ past ∧ ∀ d, Added past d p → Commits (s.pc d) := by
      by_cases he : p = tp
      · subst p
        rw [hself] at hp
        exact hnow hp
      · rw [hother he] at hp
        exact h.commits p hp
    exact ⟨hall.1, fun d hd => hcommits d (hall.2 d ((hadded d p).mp hd))⟩
  · apply reason_append
    by_cases he : p = tp
    · subst p
      rw [hself] at hp
      rcases hmove.aborts_from hp with hbefore | ⟨d, rest, c, hscan, hc, hs⟩
      · exact h.aborts tp hbefore
      · -- the reason of an aborted dependency is one of its dependents too
        have hd : d ∈ dependsOf s.manager tp := by
          apply h.held.looked
          rw [hscan]
          exact List.mem_cons_self
        have hdead : Threads.status (s.pc d) = .aborted := by
          rw [← h.held.safe.status d c hc, hs]
        obtain ⟨q, hpath, hq⟩ := h.aborts d (aborts_of_status hdead)
        cases hv : view s.manager tp with
        | none =>
            rw [dependsOf_of_none hv] at hd
            exact absurd hd List.not_mem_nil
        | some e =>
            rw [dependsOf_of_view hv] at hd
            exact ⟨q, hpath.tail ((h.added tp e hv d).mp hd), hq⟩
    · rw [hother he] at hp
      exact h.aborts p hp

-- A step that leaves the positions as they are.
theorem Told.of_same (h : Told past s) (hheld : Held after) (hpc : after.pc = s.pc)
    (hfresh : s.manager.fresh ≤ after.manager.fresh)
    (ha : ∀ p, a ≠ .commit p ∧ a ≠ .abort p)
    (hadding : ∀ p d, a = .addDependency p d → s.pc p = .adding ∧ p < after.manager.fresh)
    (hadded : ∀ p c, view after.manager p = some c →
      ∀ d, d ∈ c.depends ↔ Added past d p ∨ a = .addDependency p d) :
    Told (past ++ [a]) after := by
  have hcommit (p : Ptr) : .commit p ∈ past ++ [a] ↔ .commit p ∈ past := by
    simp [(ha p).1.symm]
  have habort (p : Ptr) : .abort p ∈ past ++ [a] ↔ .abort p ∈ past := by
    simp [(ha p).2.symm]
  have hold (p d : Ptr) (hp : Commits (s.pc p)) (hd : Added (past ++ [a]) d p) :
      Added past d p := by
    rcases (added_append past a d p).mp hd with hd | he
    · exact hd
    · rw [(hadding p d he).1] at hp
      exact hp.elim
  refine ⟨hheld, fun p c hc d => ?_, fun p d hd => ?_, fun p => ?_, fun p hp => ?_,
    fun p hp => ?_, fun p hp => ?_, fun p hp => ?_⟩
  · rw [added_append]
    exact hadded p c hc d
  · rcases (added_append past a d p).mp hd with hd | he
    · exact Nat.lt_of_lt_of_le (h.named p d hd) hfresh
    · exact (hadding p d he).2
  · rw [hpc, hcommit, habort]
    exact h.adding p
  · rw [habort]
    exact h.once p ((hcommit p).mp hp)
  · rw [hcommit]
    exact h.decides p (hpc ▸ hp)
  · rw [hpc] at hp ⊢
    rw [hcommit]
    exact ⟨(h.commits p hp).1, fun d hd => (h.commits p hp).2 d (hold p d hp hd)⟩
  · rw [hpc] at hp
    exact reason_append a (h.aborts p hp)

theorem create_told (h : Told past s) (hcall : transCreate s.manager = .ok (p, m)) :
    Told (past ++ [.create]) { s with manager := m } := by
  have hheld := create_held h.held hcall
  obtain ⟨rfl, hfresh, hview⟩ := transCreate_ok hcall
  refine h.of_same hheld rfl (hfresh ▸ Nat.le_succ _) (fun _ => by simp) (fun _ _ => by simp)
    fun p c hc d => ?_
  simp only [reduceCtorEq, or_false]
  rw [hview] at hc
  by_cases hp : p = s.manager.fresh
  · subst p
    rw [Function.update_self] at hc
    obtain rfl := Option.some.inj hc
    refine iff_of_false List.not_mem_nil fun hd => ?_
    exact Nat.lt_irrefl _ (h.named _ d hd)
  · rw [Function.update_of_ne hp] at hc
    exact h.added p c hc d

-- As long as the ids have not wrapped around, the walk takes no transaction for
-- another one.
theorem Held.compared_iff (h : Held s) (hids : s.manager.fresh ≤ 2 ^ 32) {entries : List Ptr}
    (hentries : ∀ e ∈ entries, e ≠ transList ∧ (view s.manager e).isSome) (hd : d ≠ transList)
    (hlive : (view s.manager d).isSome) :
    Compared (idOf s.manager) entries d → d ∈ entries := by
  rintro ⟨e, he, hid⟩
  have he := List.dropLast_subset entries he
  obtain ⟨n, xs, hx⟩ := h.chained
  have hnumber {p : Ptr} (hp : p ≠ transList) (hsome : (view s.manager p).isSome) :
      idOf s.manager p = some (BitVec.ofNat 32 (p - 1)) ∧ 0 < p ∧ p ≤ n := by
    obtain ⟨c, hc⟩ := Option.isSome_iff_exists.mp hsome
    obtain ⟨t, ht, rfl⟩ := trans_of_view hc
    refine ⟨?_, Nat.pos_of_ne_zero hp, hx.bounded p ((hx.members p).mpr ⟨hp, hsome⟩)⟩
    rw [idOf, ht, Option.map_some]
    exact congrArg some (hx.ids p (core t) hp hc)
  obtain ⟨hne, hsome⟩ := hentries e he
  obtain ⟨hide, hpose, hlee⟩ := hnumber hne hsome
  obtain ⟨hidd, hposd, hled⟩ := hnumber hd hlive
  rw [hide, hidd] at hid
  have hfresh := hx.fresh
  have hsmall {p : Nat} (hle : p ≤ n) : (p - 1) % 2 ^ 32 = p - 1 :=
    Nat.mod_eq_of_lt (by omega)
  have heq := congrArg BitVec.toNat (Option.some.inj hid)
  rw [BitVec.toNat_ofNat, BitVec.toNat_ofNat, hsmall hlee, hsmall hled] at heq
  have hsame : e = d := by
    have hle : 1 ≤ e := hpose
    have hle' : 1 ≤ d := hposd
    calc e = e - 1 + 1 := (Nat.sub_add_cancel hle).symm
      _ = d - 1 + 1 := by rw [heq]
      _ = d := Nat.sub_add_cancel hle'
  exact hsame ▸ he

theorem addDependency_told (h : Told past s) (hids : s.manager.fresh ≤ 2 ^ 32)
    (howned : s.pc tp = .adding) (hcounting : s.Counting (.addDependency tp dtp))
    (hcall : transAddDependency s.manager (some tp) (some dtp) = .ok m) :
    Told (past ++ [.addDependency tp dtp]) { s with manager := m } := by
  have hheld := addDependency_held h.held howned hcounting hcall
  have hcall' := hcall
  unfold transAddDependency at hcall'
  obtain ⟨t, ht, hcall'⟩ := Lib.bind_ok hcall'
  obtain ⟨u, hu, hcall'⟩ := Lib.bind_ok hcall'
  have ht := Manager.get_ok.mp ht
  have hu := Manager.get_ok.mp hu
  have hlive (e : Ptr) (he : e ∈ t.depends) : e ≠ transList ∧ (view s.manager e).isSome := by
    apply h.held.named tp
    rw [dependsOf_of_view (view_of_trans ht)]
    exact he
  have hsome (e : Ptr) (he : e ∈ t.depends) : (s.manager.trans e).isSome := by
    have hv := (hlive e he).2
    rw [view, Option.isSome_map] at hv
    exact hv
  rw [appendDependency_eq s.manager dtp u t.depends hu hsome, Lib.ok_bind] at hcall'
  have hfresh := (transAddDependency_ok hcall).1
  refine h.of_same hheld rfl (Nat.le_of_eq hfresh.symm) (fun _ => by simp) (fun p d he => ?_)
    fun p c hc d => ?_
  · obtain ⟨rfl, rfl⟩ := Action.addDependency.inj he
    refine ⟨howned, ?_⟩
    rw [hfresh]
    exact h.held.safe.bounded (view_of_trans ht)
  · simp only [Action.addDependency.injEq]
    by_cases hcompared : Compared (idOf s.manager) t.depends dtp
    · -- the walk has found dtp
      rw [if_pos hcompared] at hcall'
      obtain rfl := Except.ok.inj hcall'
      have hmem : dtp ∈ t.depends := h.held.compared_iff hids hlive hcounting.2.1
        (by rw [view_of_trans hu]; rfl) hcompared
      rw [← h.added p c hc d]
      refine (or_iff_left_of_imp ?_).symm
      rintro ⟨rfl, rfl⟩
      rw [view_of_trans ht] at hc
      rw [← Option.some.inj hc]
      exact hmem
    · rw [if_neg hcompared] at hcall'
      by_cases he : dtp = tp
      · simp [he] at hcall'
      · simp only [he, if_false] at hcall'
        obtain ⟨e, hde, -, hview⟩ := transRef_ok hcall'
        rw [view_set, Function.update_of_ne he, view_of_trans hu] at hde
        obtain rfl := Option.some.inj hde
        rw [hview, view_set] at hc
        by_cases hpd : p = dtp
        · subst p
          rw [Function.update_self] at hc
          obtain rfl := Option.some.inj hc
          have hold := h.added dtp _ (view_of_trans hu) d
          rw [← hold]
          exact (or_iff_left fun hboth => he hboth.1.symm).symm
        · rw [Function.update_of_ne hpd] at hc
          by_cases hpt : p = tp
          · subst p
            rw [Function.update_self] at hc
            obtain rfl := Option.some.inj hc
            rw [← h.added tp _ (view_of_trans ht) d]
            simp [core, eq_comm]
          · rw [Function.update_of_ne hpt] at hc
            rw [← h.added p c hc d]
            exact (or_iff_left fun hboth => hpt hboth.1.symm).symm

-- The owner of tp makes its call.
theorem call_told (h : Told past s) (hheld : Held (s.goto s.manager tp next))
    (hadding : s.pc tp = .adding) (hnext : next ≠ .adding) (hcommits : ¬Commits next)
    (ha : a = .commit tp ∧ ¬Aborts next ∨ a = .abort tp ∧ ¬Decides next) :
    Told (past ++ [a]) (s.goto s.manager tp next) := by
  obtain ⟨hnocommit, hnoabort⟩ := (h.adding tp).mp hadding
  have hnot (p d : Ptr) : a ≠ .addDependency p d := by
    rintro rfl
    rcases ha with ⟨he, -⟩ | ⟨he, -⟩ <;> cases he
  have hadded (d p : Ptr) : Added (past ++ [a]) d p ↔ Added past d p := by
    rw [added_append, or_iff_left (hnot p d)]
  have hself : (s.goto s.manager tp next).pc tp = next := by
    rw [goto_pc, Function.update_self]
  have hother {p : Ptr} (hp : p ≠ tp) : (s.goto s.manager tp next).pc p = s.pc p := by
    rw [goto_pc, Function.update_of_ne hp]
  have hin {b : Action} (hb : b ∈ past) : b ∈ past ++ [a] := List.mem_append_left _ hb
  have hmem (b : Action) : b ∈ past ++ [a] ↔ b ∈ past ∨ b = a := by
    rw [List.mem_append, List.mem_singleton]
  -- before its call the owner has neither decided to commit nor to abort
  have hmoved {P : Pc → Prop} (hP : ¬P .adding) {p : Ptr} (hp : P (s.pc p)) :
      P ((s.goto s.manager tp next).pc p) := by
    have hne : p ≠ tp := by
      rintro rfl
      rw [hadding] at hp
      exact hP hp
    rw [hother hne]
    exact hp
  have hcall (p : Ptr) : p ≠ tp → a ≠ .commit p ∧ a ≠ .abort p := by
    intro hp
    rcases ha with ⟨rfl, -⟩ | ⟨rfl, -⟩ <;> simp [Ne.symm hp]
  refine ⟨hheld, fun p c hc d => ?_, fun p d hd => ?_, fun p => ?_, fun p hp => ?_,
    fun p hp => ?_, fun p hp => ?_, fun p hp => ?_⟩
  · rw [hadded]
    exact h.added p c hc d
  · exact h.named p d ((hadded d p).mp hd)
  · by_cases he : p = tp
    · subst p
      rw [hself]
      refine iff_of_false hnext ?_
      rcases ha with ⟨rfl, -⟩ | ⟨rfl, -⟩ <;> simp
    · obtain ⟨hc, hb⟩ := hcall p he
      rw [hother he, h.adding p, hmem, hmem, or_iff_left hc.symm, or_iff_left hb.symm]
  · rw [hmem]
    by_cases he : p = tp
    · subst p
      rcases (hmem _).mp hp with hc | rfl
      · exact absurd hc hnocommit
      · simp [hnoabort]
    · obtain ⟨hc, hb⟩ := hcall p he
      rw [or_iff_left hb.symm]
      exact h.once p (((hmem _).mp hp).resolve_right hc.symm)
  · by_cases he : p = tp
    · subst p
      rw [hself] at hp
      rcases ha with ⟨rfl, -⟩ | ⟨-, hd⟩
      · simp
      · exact absurd hp hd
    · rw [hother he] at hp
      exact hin (h.decides p hp)
  · have hold : Commits (s.pc p) := by
      by_cases he : p = tp
      · subst p
        rw [hself] at hp
        exact absurd hp hcommits
      · rw [hother he] at hp
        exact hp
    obtain ⟨hc, hall⟩ := h.commits p hold
    exact ⟨hin hc, fun d hd => hmoved id (hall d ((hadded d p).mp hd))⟩
  · by_cases he : p = tp
    · subst p
      rw [hself] at hp
      rcases ha with ⟨-, hd⟩ | ⟨rfl, -⟩
      · exact absurd hp hd
      · exact ⟨tp, .refl, (hmem _).mpr (Or.inr rfl)⟩
    · rw [hother he] at hp
      exact reason_append a (h.aborts p hp)

theorem step_told (h : Told past s) (hids : s.manager.fresh ≤ 2 ^ 32) (hlegal : s.Legal a)
    (hstep : s.step a = .ok after) : Told (past ++ [a]) after := by
  have hheld := step_held h.held hlegal hstep
  obtain ⟨howned, hcounting⟩ := hlegal
  cases a with
  | advance tp => exact advance_told h hstep
  | create =>
      obtain ⟨⟨p, m⟩, hcall, hstep⟩ := Lib.bind_ok hstep
      obtain rfl := Except.ok.inj hstep
      exact create_told h hcall
  | addDependency tp dtp =>
      obtain ⟨m, hcall, hstep⟩ := Lib.bind_ok hstep
      obtain rfl := Except.ok.inj hstep
      exact addDependency_told h hids howned hcounting hcall
  | commit tp =>
      obtain ⟨t, -, hstep⟩ := Lib.bind_ok hstep
      obtain rfl := Except.ok.inj hstep
      exact call_told h hheld howned (by simp) (by simp [Commits])
        (Or.inl ⟨rfl, by simp [Aborts, Threads.status]⟩)
  | abort tp =>
      obtain ⟨t, -, hstep⟩ := Lib.bind_ok hstep
      obtain rfl := Except.ok.inj hstep
      exact call_told h hheld howned (by simp) (by simp [Commits]) (Or.inr ⟨rfl, by simp [Decides]⟩)

theorem step_fresh (hstep : s.step a = .ok after) : s.manager.fresh ≤ after.manager.fresh := by
  cases a with
  | advance tp =>
      obtain ⟨next, -, hfresh, -⟩ := advance_ok hstep
      exact Nat.le_of_eq hfresh.symm
  | create =>
      obtain ⟨⟨p, m⟩, hcall, hstep⟩ := Lib.bind_ok hstep
      obtain rfl := Except.ok.inj hstep
      rw [(transCreate_ok hcall).2.1]
      exact Nat.le_succ _
  | addDependency tp dtp =>
      obtain ⟨m, hcall, hstep⟩ := Lib.bind_ok hstep
      obtain rfl := Except.ok.inj hstep
      exact Nat.le_of_eq (transAddDependency_ok hcall).1.symm
  | commit tp =>
      obtain ⟨t, -, hstep⟩ := Lib.bind_ok hstep
      obtain rfl := Except.ok.inj hstep
      exact Nat.le_refl _
  | abort tp =>
      obtain ⟨t, -, hstep⟩ := Lib.bind_ok hstep
      obtain rfl := Except.ok.inj hstep
      exact Nat.le_refl _

theorem told_start : Told [] start := by
  refine ⟨held_start, fun p c hc d => ?_, fun p d hd => absurd hd List.not_mem_nil,
    fun p => iff_of_true rfl ⟨List.not_mem_nil, List.not_mem_nil⟩, fun p _ => List.not_mem_nil,
    fun p hp => hp.elim, fun p hp => hp.elim, fun p hp => ?_⟩
  · refine iff_of_false (fun hd => ?_) List.not_mem_nil
    have hmem : d ∈ dependsOf start.manager p := by
      rw [dependsOf_of_view hc]
      exact hd
    obtain ⟨hne, hlive⟩ := held_start.named p d hmem
    obtain ⟨c, hc⟩ := Option.isSome_iff_exists.mp hlive
    have hlt := safe_start.bounded hc
    exact hne (Nat.lt_one_iff.mp hlt)
  · cases hp

theorem run_told {actions : List Action} (hrun : Lib.Steps step Legal start actions s)
    (hids : s.manager.fresh ≤ 2 ^ 32) : Told actions s := by
  have hlast := hrun.history (fun past s => s.manager.fresh ≤ 2 ^ 32 → Told past s)
    (fun past s a next h hlegal hstep hle => ?_) fun _ => told_start
  · exact hlast hids
  · have hle := Nat.le_trans (step_fresh hstep) hle
    exact step_told (h hle) hle hlegal hstep

theorem Told.commits_all (h : Told past s) (hp : Commits (s.pc p)) {q : Ptr}
    (hpath : Relation.ReflTransGen (Added past) q p) : Commits (s.pc q) := by
  induction hpath using Relation.ReflTransGen.head_induction_on with
  | refl => exact hp
  | head hd _ ih => exact (h.commits _ ih).2 _ hd

theorem Told.commit_iff (h : Told past s) (hdone : s.pc p = .done verdict) :
    verdict = .commit ↔ ∀ q, Relation.ReflTransGen (Added past) q p → .commit q ∈ past := by
  cases verdict with
  | commit =>
      refine iff_of_true rfl fun q hpath => ?_
      have hp : Commits (s.pc p) := by
        rw [hdone]
        rfl
      exact (h.commits q (h.commits_all hp hpath)).1
  | abort =>
      refine iff_of_false (by simp) fun hall => ?_
      have hp : Aborts (s.pc p) := by
        rw [hdone]
        rfl
      obtain ⟨q, hpath, hq⟩ := h.aborts p hp
      exact h.once q (hall q hpath) hq

end

-- A call ends with a commit exactly when trans_commit has been called for the
-- transaction and for everything that it depends on, directly or through others.
theorem done_commit_iff {actions : List Action} {s : Threads}
    (hrun : Lib.Steps step Legal start actions s) (hids : s.manager.fresh ≤ 2 ^ 32) {p : Ptr}
    {verdict : Verdict} (hdone : s.pc p = .done verdict) :
    verdict = .commit ↔
      ∀ q, Relation.ReflTransGen (Added actions) q p → .commit q ∈ actions :=
  (run_told hrun hids).commit_iff hdone

-- The third transaction depends on the second and that one on the first, which aborts.
theorem done_abort_of_chain :
    ∃ (actions : List Action) (s : Threads), Lib.Steps step Legal start actions s ∧
      .commit 3 ∈ actions ∧ .commit 2 ∈ actions ∧ s.pc 3 = .done .abort ∧
      (Verdict.abort = .commit ↔
        ∀ q, Relation.ReflTransGen (Added actions) q 3 → .commit q ∈ actions) := by
  let actions : List Action := [.create, .create, .create, .addDependency 2 1,
    .addDependency 3 2, .commit 3, .commit 2, .abort 1] ++ List.replicate 6 (.advance 1) ++
    List.replicate 9 (.advance 2) ++ List.replicate 9 (.advance 3)
  obtain ⟨s, hrun, hfresh, hdone⟩ : ∃ s : Threads,
      Lib.checkedRun step Legal start actions = some s ∧ s.manager.fresh = 4 ∧
      s.pc 3 = .done .abort := ⟨_, rfl, rfl, rfl⟩
  have hsteps := Lib.Steps.of_checkedRun hrun
  have hids : s.manager.fresh ≤ 2 ^ 32 := by
    rw [hfresh]
    decide
  exact ⟨actions, s, hsteps, by decide, by decide, hdone, done_commit_iff hsteps hids hdone⟩

-- However the owners take turns, the calls end in the same way: two runs that
-- cannot be continued and in which the clients make the same calls agree about
-- every transaction.
theorem schedules_agree {actions more more' : List Action} {s after after' : Threads}
    (hrun : Lib.Steps step Careful start actions s) (hids : s.manager.fresh ≤ 2 ^ 32)
    (hacyclic : WellFounded (DependsOn s.manager))
    (hmore : Lib.Steps step Finishing s more after)
    (hmore' : Lib.Steps step Finishing s more' after')
    (hstuck : Lib.Stuck step Finishing after) (hstuck' : Lib.Stuck step Finishing after')
    (hcalls : ∀ a, ofClient a = true → (a ∈ more ↔ a ∈ more')) {p : Ptr} (hp : p ≠ transList)
    (hlt : p < s.manager.fresh) :
    ∃ verdict, after.pc p = .done verdict ∧ after'.pc p = .done verdict := by
  -- a run that cannot be continued has told the verdict of p and of all it depends on
  have hend {more : List Action} {after : Threads} (hmore : Lib.Steps step Finishing s more after)
      (hstuck : Lib.Stuck step Finishing after) :
      Told (actions ++ more) after ∧ ∃ verdict, after.pc p = .done verdict := by
    have hlegal : Lib.Steps step Legal start (actions ++ more) after :=
      (hrun.weaken fun _ _ h => ⟨h.1.1, h.2⟩).append
        (hmore.weaken fun _ _ h => ⟨h.1.1.1, h.1.2⟩)
    have hfresh : after.manager.fresh = s.manager.fresh := by
      apply hmore.invariant (fun next => next.manager.fresh = s.manager.fresh) _ rfl
      intro _ _ _ hfresh hguard hstep
      rw [finishing_fresh hguard hstep, hfresh]
    have hclosing :=
      hmore.invariant Closing (fun _ _ _ h hguard hstep => step_closing h hguard hstep)
      (run_closing hrun hacyclic)
    exact ⟨run_told hlegal (hfresh ▸ hids), finished_of_stuck hclosing hstuck p hp (hfresh ▸ hlt)⟩
  obtain ⟨htold, verdict, hv⟩ := hend hmore hstuck
  obtain ⟨htold', verdict', hv'⟩ := hend hmore' hstuck'
  have hsame (a : Action) (ha : ofClient a = true) :
      a ∈ actions ++ more ↔ a ∈ actions ++ more' := by
    rw [List.mem_append, List.mem_append, hcalls a ha]
  have hadded : Added (actions ++ more) = Added (actions ++ more') := by
    funext d p
    exact propext (hsame (.addDependency p d) rfl)
  have hiff : verdict = .commit ↔ verdict' = .commit := by
    rw [htold.commit_iff hv, htold'.commit_iff hv', hadded]
    exact forall_congr' fun q => imp_congr_right fun _ => hsame (.commit q) rfl
  refine ⟨verdict, hv, ?_⟩
  rw [hv']
  cases verdict <;> cases verdict' <;> simp_all

-- The first transaction aborts and releases the second one, which waits for it.
-- Then either of them may go on first.
theorem schedules_agree_of_waiting :
    ∃ s after after', s.pc 2 = .acquire 1 [] ∧
      Lib.Steps step Finishing s
        (List.replicate 4 (.advance 1) ++ List.replicate 9 (.advance 2)) after ∧
      Lib.Steps step Finishing s
        (List.replicate 9 (.advance 2) ++ List.replicate 4 (.advance 1)) after' ∧
      ∃ verdict, after.pc 2 = .done verdict ∧ after'.pc 2 = .done verdict := by
  obtain ⟨s, after, after', hrun, hmore, hmore', hfresh, hpc, hdepends, hother, hdone, hdone'⟩ :
      ∃ s after after', Lib.Steps step Careful start
        [.create, .create, .addDependency 2 1, .commit 2, .advance 2, .advance 2, .abort 1,
          .advance 1, .advance 1, .advance 1, .advance 1] s ∧
        Lib.Steps step Finishing s
          (List.replicate 4 (.advance 1) ++ List.replicate 9 (.advance 2)) after ∧
        Lib.Steps step Finishing s
          (List.replicate 9 (.advance 2) ++ List.replicate 4 (.advance 1)) after' ∧
        s.manager.fresh = 3 ∧ s.pc 2 = .acquire 1 [] ∧ dependsOf s.manager 2 = [1] ∧
        (∀ p, p ≠ 2 → dependsOf s.manager p = []) ∧
        (after.manager.fresh = 3 ∧ after.pc 1 = .done .abort ∧ after.pc 2 = .done .abort) ∧
        after'.manager.fresh = 3 ∧ after'.pc 1 = .done .abort ∧ after'.pc 2 = .done .abort := by
    refine ⟨_, _, _, .cons ⟨⟨trivial, trivial⟩, trivial⟩ rfl <|
      .cons ⟨⟨trivial, trivial⟩, trivial⟩ rfl <|
      .cons ⟨⟨rfl, trivial⟩, Nat.succ_ne_zero _, Nat.succ_ne_zero _, fun t ht => ?_⟩ rfl <|
      .cons ⟨⟨rfl, trivial⟩, Nat.succ_ne_zero _⟩ rfl <|
      .cons ⟨⟨trivial, fun _ _ _ => rfl⟩, trivial⟩ rfl <|
      .cons ⟨⟨trivial, trivial⟩, trivial⟩ rfl <|
      .cons ⟨⟨rfl, trivial⟩, Nat.succ_ne_zero _⟩ rfl <|
      .cons ⟨⟨trivial, trivial⟩, trivial⟩ rfl <| .cons ⟨⟨trivial, trivial⟩, trivial⟩ rfl <|
      .cons ⟨⟨trivial, ?_⟩, trivial⟩ rfl <| .cons ⟨⟨trivial, trivial⟩, trivial⟩ rfl <| .nil _,
      .cons ⟨⟨⟨trivial, trivial⟩, trivial⟩, rfl⟩ rfl <|
      .cons ⟨⟨⟨trivial, trivial⟩, trivial⟩, rfl⟩ rfl <|
      .cons ⟨⟨⟨trivial, trivial⟩, trivial⟩, rfl⟩ rfl <|
      .cons ⟨⟨⟨trivial, trivial⟩, trivial⟩, rfl⟩ rfl <|
      .cons ⟨⟨⟨trivial, trivial⟩, trivial⟩, rfl⟩ rfl <|
      .cons ⟨⟨⟨trivial, trivial⟩, trivial⟩, rfl⟩ rfl <|
      .cons ⟨⟨⟨trivial, trivial⟩, trivial⟩, rfl⟩ rfl <|
      .cons ⟨⟨⟨trivial, trivial⟩, trivial⟩, rfl⟩ rfl <|
      .cons ⟨⟨⟨trivial, trivial⟩, trivial⟩, rfl⟩ rfl <|
      .cons ⟨⟨⟨trivial, ?_⟩, trivial⟩, rfl⟩ rfl <|
      .cons ⟨⟨⟨trivial, trivial⟩, trivial⟩, rfl⟩ rfl <|
      .cons ⟨⟨⟨trivial, trivial⟩, trivial⟩, rfl⟩ rfl <|
      .cons ⟨⟨⟨trivial, trivial⟩, trivial⟩, rfl⟩ rfl <|
      .nil _,
      .cons ⟨⟨⟨trivial, trivial⟩, trivial⟩, rfl⟩ rfl <|
      .cons ⟨⟨⟨trivial, trivial⟩, trivial⟩, rfl⟩ rfl <|
      .cons ⟨⟨⟨trivial, trivial⟩, trivial⟩, rfl⟩ rfl <|
      .cons ⟨⟨⟨trivial, trivial⟩, trivial⟩, rfl⟩ rfl <|
      .cons ⟨⟨⟨trivial, trivial⟩, trivial⟩, rfl⟩ rfl <|
      .cons ⟨⟨⟨trivial, ?_⟩, trivial⟩, rfl⟩ rfl <|
      .cons ⟨⟨⟨trivial, trivial⟩, trivial⟩, rfl⟩ rfl <|
      .cons ⟨⟨⟨trivial, trivial⟩, trivial⟩, rfl⟩ rfl <|
      .cons ⟨⟨⟨trivial, trivial⟩, trivial⟩, rfl⟩ rfl <|
      .cons ⟨⟨⟨trivial, trivial⟩, trivial⟩, rfl⟩ rfl <|
      .cons ⟨⟨⟨trivial, trivial⟩, trivial⟩, rfl⟩ rfl <|
      .cons ⟨⟨⟨trivial, trivial⟩, trivial⟩, rfl⟩ rfl <|
      .cons ⟨⟨⟨trivial, trivial⟩, trivial⟩, rfl⟩ rfl <|
      .nil _,
      rfl, rfl, rfl, fun p hp => ?_, ⟨rfl, rfl, rfl⟩, rfl, rfl, rfl⟩
    · obtain rfl := Option.some.inj ht
      decide
    pick_goal 4
    · by_cases hone : p = 1
      · rw [hone]
        rfl
      · by_cases hzero : p = 0
        · rw [hzero]
          rfl
        · apply dependsOf_of_none
          simp [goto, view, Manager.set, start, transInit, transList, hone, hzero, hp]
    -- nobody registers when an owner looks at its waitcnt
    all_goals
      intro q rest
      by_cases h₁ : q = 1
      · simp [goto, h₁]
      · by_cases h₂ : q = 2 <;> simp [goto, start, h₁, h₂]
  have hacyclic := wellFounded_of_pair hdepends hother
  have hstuck {more : List Action} {after : Threads} (hmore : Lib.Steps step Finishing s more after)
      (hdone : after.manager.fresh = 3 ∧ after.pc 1 = .done .abort ∧ after.pc 2 = .done .abort) :
      Lib.Stuck step Finishing after := by
    obtain ⟨hfresh, hone, htwo⟩ := hdone
    have hclosing :=
      hmore.invariant Closing (fun _ _ _ h hguard hstep => step_closing h hguard hstep)
      (run_closing hrun hacyclic)
    refine hclosing.stuck_of_finished fun p hp hlt => ?_
    rw [hfresh] at hlt
    have hnumber {p : Nat} (hp : p ≠ 0) (hlt : p < 3) : p = 1 ∨ p = 2 := by omega
    rcases hnumber hp hlt with rfl | rfl
    · exact ⟨_, hone⟩
    · exact ⟨_, htwo⟩
  have hids : s.manager.fresh ≤ 2 ^ 32 := by
    rw [hfresh]
    decide
  refine ⟨s, after, after', hpc, hmore, hmore', ?_⟩
  refine schedules_agree hrun hids hacyclic hmore hmore' (hstuck hmore hdone)
    (hstuck hmore' hdone') (fun a _ => ?_) (Nat.succ_ne_zero _) (hfresh ▸ Nat.lt_succ_self 2)
  rw [List.mem_append, List.mem_append, or_comm]

end CSE320.Xacto.Threads
