import CSE320.Lib.Sum
import CSE320.Xacto.Status

namespace CSE320.Xacto

open Function (update)

-- A client together with the number of references that it holds itself.
structure Client where
  world : World
  held : Ptr → Nat

namespace Client

def start : Client where
  world := .start
  held := fun _ => 0

-- trans_create hands one reference to the client, trans_ref one more. Each of
-- trans_unref, trans_commit and trans_abort consumes one.
def heldAfter (c : Client) : Call → Ptr → Nat
  | .create => update c.held c.world.manager.fresh (c.held c.world.manager.fresh + 1)
  | .ref (some tp) => update c.held tp (c.held tp + 1)
  | .unref (some tp) | .commit tp | .abort tp => update c.held tp (c.held tp - 1)
  | _ => c.held

def exec (c : Client) (call : Call) : Except Stop Client := do
  let world ← c.world.exec call
  return { world, held := c.heldAfter call }

-- A client releases only what it holds, and it is never given the sentinel.
def Allowed (c : Client) : Call → Prop
  | .unref (some tp) | .commit tp | .abort tp => 0 < c.held tp
  | .ref tp | .versionCreate tp _ => tp ≠ some transList
  | .addDependency tp dtp => tp ≠ some transList ∧ dtp ≠ some transList
  | _ => True

end Client

def entryCount (p : Ptr) : Option Transaction → Nat
  | some t => t.depends.count p
  | none => 0

-- The dependency-set entries of live transactions that name p.
def entriesNaming (m : Manager) (p : Ptr) : Nat :=
  ∑ q ∈ Finset.range m.fresh, entryCount p (m.trans q)

def versionsBy (versions : List (Ptr × Version)) (p : Ptr) : Nat :=
  versions.countP (·.2.creator = p)

def references (c : Client) (p : Ptr) : Nat :=
  c.held p + entriesNaming c.world.manager p + versionsBy c.world.versions p

-- The transaction on which a call takes a reference.
def takes (m : Manager) : Call → Option Ptr
  | .ref tp | .versionCreate tp _ => tp
  | .addDependency (some tp) (some dtp) =>
    match m.trans tp, m.trans dtp with
    | some t, some d =>
      match appendDependency m dtp d.id t.depends with
      | .ok (some _) => some dtp
      | _ => none
    | _, _ => none
  | _ => none

-- The transaction of which a call releases a reference.
def releases (w : World) : Call → Option Ptr
  | .unref tp => tp
  | .commit tp | .abort tp => some tp
  | .versionDispose (some vp) => (w.versions.lookup vp).map Version.creator
  | _ => none

-- The calls that keep the accounts: no version gets a creator that nobody holds,
-- no count overflows, and no freed transaction still has dependencies.
structure Accounted (w : World) (call : Call) : Prop where
  named : ∀ bp, call ≠ .versionCreate none bp
  notFull : ∀ p t, takes w.manager call = some p → w.manager.trans p = some t →
    t.refcnt.toNat + 1 < 2 ^ 32
  emptied : ∀ p t, releases w call = some p → w.manager.trans p = some t → t.refcnt = 1 →
    t.depends = []

def liveCount (m : Manager) (p : Ptr) : Nat :=
  if p = transList then 0 else ((view m p).map (·.refcnt.toNat)).getD 0

-- The counts of the live transactions pay for the entries that name them and
-- for the references kept outside the manager.
structure Balanced (m : Manager) (outer : Ptr → Nat) : Prop where
  settled : Settled m
  count : ∀ p, liveCount m p = outer p + entriesNaming m p
  positive : ∀ p c, p ≠ transList → view m p = some c → 0 < c.refcnt.toNat

@[simp] theorem entryCount_some (p : Ptr) (t : Transaction) :
    entryCount p (some t) = t.depends.count p := rfl

@[simp] theorem entryCount_none (p : Ptr) : entryCount p none = 0 := rfl

theorem entryCount_map_core (p : Ptr) (t : Option Transaction) :
    entryCount p (t.map core) = entryCount p t := by
  cases t <;> rfl

theorem entriesNaming_eq (m : Manager) (p : Ptr) :
    entriesNaming m p = ∑ q ∈ Finset.range m.fresh, entryCount p (view m q) := by
  simp only [entriesNaming, view, entryCount_map_core]

-- Replacing one entry moves the count by the difference of the two entries.
theorem entriesNaming_update {m after : Manager} {q : Ptr} {entry : Option Transaction}
    (hfresh : after.fresh = m.fresh) (hq : q < m.fresh)
    (hview : view after = update (view m) q entry) (p : Ptr) :
    entriesNaming after p + entryCount p (view m q) = entriesNaming m p + entryCount p entry := by
  rw [entriesNaming_eq, entriesNaming_eq, hfresh, hview]
  have hchange := Lib.sum_range_change (fun r => entryCount p (update (view m) q entry r))
    (fun r => entryCount p (view m r)) hq
    (fun r hr => congrArg (entryCount p) (Function.update_of_ne hr entry (view m)))
  simpa only [Function.update_self] using hchange

theorem entriesNaming_congr {m after : Manager} (hfresh : after.fresh = m.fresh)
    (hview : view after = view m) : entriesNaming after = entriesNaming m := by
  funext p
  rw [entriesNaming_eq, entriesNaming_eq, hfresh, hview]

theorem liveCount_of_ne {m after : Manager} {p q : Ptr} {entry : Option Transaction}
    (hview : view after = update (view m) q entry) (hp : p ≠ q) :
    liveCount after p = liveCount m p := by
  rw [liveCount, liveCount, hview, Function.update_of_ne hp]

theorem liveCount_self {m : Manager} {p : Ptr} {c : Transaction} (hp : p ≠ transList)
    (hc : view m p = some c) : liveCount m p = c.refcnt.toNat := by
  rw [liveCount, if_neg hp, hc]
  rfl

theorem liveCount_none {m : Manager} {p : Ptr} (hc : view m p = none) : liveCount m p = 0 := by
  rw [liveCount, hc]
  split <;> rfl

theorem Balanced.congr {m after : Manager} {outer outer' : Ptr → Nat} (h : Balanced m outer)
    (hsettled : Settled after) (hfresh : after.fresh = m.fresh) (hview : view after = view m)
    (houter : outer' = outer) : Balanced after outer' := by
  refine ⟨hsettled, fun p => ?_, fun p c hp hc => h.positive p c hp (hview ▸ hc)⟩
  rw [houter, entriesNaming_congr hfresh hview, ← h.count p, liveCount, liveCount, hview]

-- One transaction changes its count and its entries, and the references kept
-- outside move with the two.
theorem Balanced.of_update {m after : Manager} {outer outer' : Ptr → Nat} {q : Ptr}
    {c : Transaction} {entry : Option Transaction} (h : Balanced m outer)
    (hsettled : Settled after) (hfresh : after.fresh = m.fresh) (hc : view m q = some c)
    (hview : view after = update (view m) q entry)
    (hpositive : ∀ e, q ≠ transList → entry = some e → 0 < e.refcnt.toNat)
    (hother : ∀ p, p ≠ q → outer' p + entryCount p entry = outer p + c.depends.count p)
    (hself : liveCount after q + outer q + c.depends.count q =
      liveCount m q + outer' q + entryCount q entry) : Balanced after outer' := by
  have hmove := entriesNaming_update hfresh (h.settled.bounded q c hc) hview
  simp only [hc, entryCount_some] at hmove
  refine ⟨hsettled, fun p => ?_, fun p e hp he => ?_⟩
  · have hm := hmove p
    have hcount := h.count p
    by_cases hpq : p = q
    · subst p
      omega
    · have ho := hother p hpq
      rw [liveCount_of_ne hview hpq]
      omega
  · rw [hview] at he
    by_cases hpq : p = q
    · subst p
      rw [Function.update_self] at he
      exact hpositive e hp he
    · rw [Function.update_of_ne hpq] at he
      exact h.positive p e hp he

theorem toNat_add_one {n : BitVec 32} (h : n.toNat + 1 < 2 ^ 32) :
    (n + 1).toNat = n.toNat + 1 := by
  rw [BitVec.toNat_add]
  exact Nat.mod_eq_of_lt h

theorem Balanced.take {m after : Manager} {outer outer' : Ptr → Nat} {p : Ptr} {c : Transaction}
    (h : Balanced m outer) (hsettled : Settled after) (hfresh : after.fresh = m.fresh)
    (hp : p ≠ transList) (hc : view m p = some c) (hfull : c.refcnt.toNat + 1 < 2 ^ 32)
    (hview : view after = update (view m) p (some { c with refcnt := c.refcnt + 1 }))
    (houter : outer' = update outer p (outer p + 1)) : Balanced after outer' := by
  have hcount := toNat_add_one hfull
  refine h.of_update hsettled hfresh hc hview (fun e _ he => ?_) (fun q hq => ?_) ?_
  · cases he
    exact hcount ▸ Nat.succ_pos _
  · rw [houter, Function.update_of_ne hq]
    rfl
  · rw [houter, Function.update_self, liveCount_self hp hc,
      liveCount_self hp (by rw [hview, Function.update_self])]
    simp only [hcount, entryCount_some]
    omega

-- A released transaction that is freed has no entries left to pay for.
theorem Balanced.release {m after : Manager} {outer outer' : Ptr → Nat} {p : Ptr}
    {c c' : Transaction} (h : Balanced m outer) (hsettled : Settled after)
    (hfresh : after.fresh = m.fresh) (hp : 0 < outer p) (hc : view m p = some c)
    (hview : view after = update (view m) p (dropRef c'))
    (hsame : c'.refcnt = c.refcnt ∧ c'.depends = c.depends) (hempty : c.refcnt = 1 → c.depends = [])
    (houter : outer' = update outer p (outer p - 1)) : Balanced after outer' := by
  have hcount := h.count p
  have hsentinel : p ≠ transList := by
    rintro rfl
    rw [liveCount, if_pos rfl] at hcount
    omega
  rw [liveCount_self hsentinel hc] at hcount
  have hentry : dropRef c' = none ∧ c.refcnt.toNat = 1 ∧ c.depends = [] ∨
      dropRef c' = some { c' with refcnt := c.refcnt - 1 } ∧
        (c.refcnt - 1).toNat + 1 = c.refcnt.toNat ∧ 1 < c.refcnt.toNat := by
    unfold dropRef
    rw [hsame.1]
    by_cases hone : c.refcnt = 1
    · exact Or.inl ⟨if_pos hone, by rw [hone]; rfl, hempty hone⟩
    · refine Or.inr ⟨if_neg hone, ?_⟩
      have hne : c.refcnt.toNat ≠ 1 := fun he => hone (BitVec.eq_of_toNat_eq he)
      constructor <;> bv_omega
  refine h.of_update hsettled hfresh hc hview (fun e _ he => ?_) (fun q hq => ?_) ?_
  · rcases hentry with ⟨hnone, -⟩ | ⟨hsome, hdec, hmany⟩
    · rw [hnone] at he
      cases he
    · rw [hsome] at he
      cases he
      change 0 < (c.refcnt - 1).toNat
      omega
  · rw [houter, Function.update_of_ne hq]
    rcases hentry with ⟨hnone, -, hnil⟩ | ⟨hsome, -⟩
    · rw [hnone, hnil]
      rfl
    · rw [hsome, entryCount_some, hsame.2]
  · rw [houter, Function.update_self, liveCount_self hsentinel hc]
    rcases hentry with ⟨hnone, hone, hnil⟩ | ⟨hsome, hdec, hmany⟩
    · have hzero : liveCount after p = 0 := by
        apply liveCount_none
        rw [hview, Function.update_self, hnone]
      rw [hzero, hnone, hnil, entryCount_none, List.count_nil]
      omega
    · rw [liveCount_self hsentinel (by rw [hview, Function.update_self, hsome]), hsome,
        entryCount_some, hsame.2]
      change (c.refcnt - 1).toNat + _ + _ = _
      omega

theorem Balanced.create {m after : Manager} {outer outer' : Ptr → Nat} {c : Transaction}
    (h : Balanced m outer) (hsettled : Settled after) (hfresh : after.fresh = m.fresh + 1)
    (hview : view after = update (view m) m.fresh (some c)) (hc : c.refcnt = 1 ∧ c.depends = [])
    (hsentinel : m.fresh ≠ transList)
    (houter : outer' = update outer m.fresh (outer m.fresh + 1)) : Balanced after outer' := by
  have hnone : view m m.fresh = none := by
    cases hold : view m m.fresh with
    | none => rfl
    | some c => exact absurd (h.settled.bounded _ c hold) (Nat.lt_irrefl _)
  have hnaming (p : Ptr) : entriesNaming after p = entriesNaming m p := by
    rw [entriesNaming_eq, entriesNaming_eq, hfresh, Finset.sum_range_succ, hview,
      Function.update_self, entryCount_some, hc.2, List.count_nil, Nat.add_zero]
    apply Finset.sum_congr rfl
    intro q hq
    rw [Function.update_of_ne (Nat.ne_of_lt (Finset.mem_range.mp hq))]
  have hself : view after m.fresh = some c := by rw [hview, Function.update_self]
  refine ⟨hsettled, fun p => ?_, fun p e hp he => ?_⟩
  · have hcount := h.count p
    rw [hnaming, houter]
    by_cases hp : p = m.fresh
    · subst p
      rw [liveCount_none hnone] at hcount
      rw [liveCount_self hsentinel hself, Function.update_self, hc.1]
      have hone : (1 : BitVec 32).toNat = 1 := rfl
      omega
    · rw [liveCount_of_ne hview hp, Function.update_of_ne hp, hcount]
  · by_cases hpf : p = m.fresh
    · subst p
      rw [hself] at he
      cases he
      rw [hc.1]
      decide
    · rw [hview, Function.update_of_ne hpf] at he
      exact h.positive p e hp he

-- A new entry takes over a reference that was kept outside.
theorem Balanced.append {m after : Manager} {outer outer' : Ptr → Nat} {p d : Ptr}
    {c : Transaction} (h : Balanced m outer) (hsettled : Settled after)
    (hfresh : after.fresh = m.fresh) (hc : view m p = some c) (hne : d ≠ p)
    (hview : view after = update (view m) p (some { c with depends := c.depends ++ [d] }))
    (houter : outer = update outer' d (outer' d + 1)) : Balanced after outer' := by
  refine h.of_update hsettled hfresh hc hview (fun e hp he => ?_) (fun q hq => ?_) ?_
  · cases he
    exact h.positive p c hp hc
  · rw [houter, entryCount_some, List.count_append, List.count_singleton]
    by_cases hqd : q = d
    · subst q
      rw [Function.update_self, if_pos (by simp)]
      omega
    · rw [Function.update_of_ne hqd, if_neg (by simpa using Ne.symm hqd)]
      omega
  · have hlive : liveCount after p = liveCount m p := by
      rw [liveCount, liveCount, hview, Function.update_self, hc]
      rfl
    rw [hlive, houter, Function.update_of_ne (Ne.symm hne), entryCount_some, List.count_append,
      List.count_singleton, if_neg (by simpa using hne)]
    omega

theorem transAddDependency_balanced {m after : Manager} {tp dtp : Ptr} {outer : Ptr → Nat}
    (h : Balanced m outer) (hsettled : Settled after) (hdtp : dtp ≠ transList)
    (hfull : ∀ p t, takes m (.addDependency (some tp) (some dtp)) = some p → m.trans p = some t →
      t.refcnt.toNat + 1 < 2 ^ 32)
    (hcall : transAddDependency m (some tp) (some dtp) = .ok after) : Balanced after outer := by
  unfold transAddDependency at hcall
  obtain ⟨t, ht, hcall⟩ := Lib.bind_ok hcall
  obtain ⟨d, hd, hcall⟩ := Lib.bind_ok hcall
  obtain ⟨result, hresult, hcall⟩ := Lib.bind_ok hcall
  rw [Manager.get_ok] at ht hd
  cases result with
  | none =>
      cases hcall
      exact h
  | some depends =>
      have htakes : takes m (.addDependency (some tp) (some dtp)) = some dtp := by
        simp only [takes, ht, hd, hresult]
      obtain rfl := appendDependency_ok hresult
      by_cases he : dtp = tp
      · simp [he] at hcall
      · simp only [he, if_false] at hcall
        obtain ⟨c, hc, hf, hv⟩ := transRef_ok hcall
        rw [view_set, Function.update_of_ne he, view_of_trans hd] at hc
        cases hc
        -- the reference is taken first and then handed over to the entry
        let middle := m.set dtp { d with refcnt := d.refcnt + 1 }
        have hmiddle : transRef m (some dtp) = .ok middle := Manager.modify_of_trans _ hd
        have hcarry : Carries True m middle := transRef_carries h.settled hmiddle
        have htaken := h.take hcarry.settled rfl hdtp (view_of_trans hd) (hfull dtp d htakes hd)
          (view_set _ _ _) rfl
        have hentry : view middle tp = some (core t) := by
          rw [view_set, Function.update_of_ne (Ne.symm he), view_of_trans ht]
        apply htaken.append hsettled hf hentry he _ rfl
        rw [hv, view_set, view_set, Function.update_comm he]
        rfl

-- The references that are kept outside the manager.
def outer (c : Client) (p : Ptr) : Nat := c.held p + versionsBy c.world.versions p

theorem outer_update {c after : Client} {p : Ptr} {k : Nat} (hheld : after.held = update c.held p k)
    (hversions : after.world.versions = c.world.versions) :
    outer after = update (outer c) p (k + versionsBy c.world.versions p) := by
  funext q
  by_cases hq : q = p
  · subst q
    rw [Function.update_self, outer, hheld, hversions, Function.update_self]
  · rw [Function.update_of_ne hq, outer, outer, hheld, hversions, Function.update_of_ne hq]

theorem outer_hold {c after : Client} {p : Ptr}
    (hheld : after.held = update c.held p (c.held p + 1))
    (hversions : after.world.versions = c.world.versions) :
    outer after = update (outer c) p (outer c p + 1) := by
  rw [outer_update hheld hversions, outer, Nat.add_right_comm]

theorem outer_drop {c after : Client} {p : Ptr}
    (hheld : after.held = update c.held p (c.held p - 1))
    (hversions : after.world.versions = c.world.versions) (hp : 0 < c.held p) :
    outer after = update (outer c) p (outer c p - 1) := by
  rw [outer_update hheld hversions, outer, Nat.sub_add_comm hp]

theorem versionsBy_cons (vp : Ptr) (version : Version) (versions : List (Ptr × Version)) :
    versionsBy ((vp, version) :: versions) =
      update (versionsBy versions) version.creator (versionsBy versions version.creator + 1) := by
  funext q
  by_cases hq : q = version.creator
  · subst q
    simp [versionsBy]
  · rw [Function.update_of_ne hq]
    simp [versionsBy, Ne.symm hq]

theorem versionsBy_eraseP {vp : Ptr} {version : Version} {versions : List (Ptr × Version)}
    (h : versions.lookup vp = some version) :
    versionsBy versions = update (versionsBy (versions.eraseP (·.1 = vp))) version.creator
      (versionsBy (versions.eraseP (·.1 = vp)) version.creator + 1) := by
  induction versions with
  | nil => cases h
  | cons first rest ih =>
      obtain ⟨number, first⟩ := first
      by_cases hnumber : number = vp
      · subst number
        rw [List.lookup_cons_self] at h
        cases h
        rw [List.eraseP_cons_of_pos (by simp), versionsBy_cons]
      · have hne : (vp == number) = false := by simpa using Ne.symm hnumber
        simp only [List.lookup_cons, hne] at h
        rw [List.eraseP_cons_of_neg (by simpa using hnumber), versionsBy_cons,
          versionsBy_cons, ih h]
        funext q
        simp only [Function.update_apply]
        split <;> split <;> simp_all

theorem exec_balanced {c after : Client} {call : Call}
    (h : Balanced c.world.manager (outer c)) (hfresh : c.world.manager.fresh ≠ transList)
    (hallowed : c.Allowed call) (hacc : Accounted c.world call)
    (hexec : c.exec call = .ok after) : Balanced after.world.manager (outer after) := by
  obtain ⟨w, hw, hexec⟩ := Lib.bind_ok hexec
  cases hexec
  have hsettled := (exec_carries h.settled hw).settled
  have htrans {p : Ptr} {d : Transaction} (hd : view c.world.manager p = some d)
      (hrel : releases c.world call = some p) (hone : d.refcnt = 1) : d.depends = [] := by
    obtain ⟨t, ht, rfl⟩ := trans_of_view hd
    exact hacc.emptied p t hrel ht hone
  have hroom {p : Ptr} {d : Transaction} (hd : view c.world.manager p = some d)
      (htakes : takes c.world.manager call = some p) : d.refcnt.toNat + 1 < 2 ^ 32 := by
    obtain ⟨t, ht, rfl⟩ := trans_of_view hd
    exact hacc.notFull p t htakes ht
  cases call with
  | create =>
      obtain ⟨⟨p, manager⟩, hcall, hw⟩ := Lib.bind_ok hw
      cases hw
      obtain ⟨rfl, hf, hv⟩ := transCreate_ok hcall
      exact h.create hsettled hf hv ⟨rfl, rfl⟩ hfresh (outer_hold rfl rfl)
  | ref tp =>
      obtain ⟨manager, hcall, hw⟩ := Lib.bind_ok hw
      cases hw
      cases tp with
      | none => cases hcall; exact h
      | some p =>
          obtain ⟨d, hd, hf, hv⟩ := transRef_ok hcall
          have hp : p ≠ transList := fun he => hallowed (congrArg some he)
          exact h.take hsettled hf hp hd (hroom hd rfl) hv (outer_hold rfl rfl)
  | unref tp =>
      obtain ⟨manager, hcall, hw⟩ := Lib.bind_ok hw
      cases hw
      cases tp with
      | none => cases hcall; exact h
      | some p =>
          obtain ⟨d, hd, hf, hv⟩ := transUnref_ok hcall
          have hp : 0 < c.held p := hallowed
          exact h.release hsettled hf (Nat.lt_of_lt_of_le hp (Nat.le_add_right _ _)) hd
            hv ⟨rfl, rfl⟩
            (htrans hd rfl) (outer_drop rfl rfl hp)
  | commit p =>
      obtain ⟨⟨st, manager⟩, hcall, hw⟩ := Lib.bind_ok hw
      cases hw
      have hp : 0 < c.held p := hallowed
      obtain ⟨d, hd, hf, ⟨-, -, hv⟩ | ⟨-, hv⟩⟩ := transCommit_ok h.settled.quiet hcall
      all_goals
        exact h.release hsettled hf (Nat.lt_of_lt_of_le hp (Nat.le_add_right _ _)) hd hv
          ⟨rfl, rfl⟩ (htrans hd rfl) (outer_drop rfl rfl hp)
  | abort p =>
      obtain ⟨⟨st, manager⟩, hcall, hw⟩ := Lib.bind_ok hw
      cases hw
      have hp : 0 < c.held p := hallowed
      obtain ⟨d, hd, -, hf, hv⟩ := transAbort_ok hcall
      exact h.release hsettled hf (Nat.lt_of_lt_of_le hp (Nat.le_add_right _ _)) hd hv
        ⟨rfl, rfl⟩ (htrans hd rfl) (outer_drop rfl rfl hp)
  | addDependency tp dtp =>
      obtain ⟨manager, hcall, hw⟩ := Lib.bind_ok hw
      cases hw
      cases tp with
      | none => cases hcall; exact h
      | some tp =>
          cases dtp with
          | none => cases hcall; exact h
          | some dtp =>
              have hdtp : dtp ≠ transList := fun he => hallowed.2 (congrArg some he)
              exact transAddDependency_balanced h hsettled hdtp hacc.notFull hcall
  | blobCreate content size =>
      cases hw
      exact h
  | versionCreate tp bp =>
      obtain ⟨⟨vp, w'⟩, hversion, hw⟩ := Lib.bind_ok hw
      cases hw
      unfold versionCreate at hversion
      obtain ⟨⟨p, m₁⟩, h₁, hrest⟩ := Lib.bind_ok hversion
      obtain ⟨m₂, h₂, hrest⟩ := Lib.bind_ok hrest
      cases hrest
      cases tp with
      | none => exact absurd rfl (hacc.named bp)
      | some tp =>
          cases h₁
          obtain ⟨d, hd, hf, hv⟩ := transRef_ok h₂
          have hp : p ≠ transList := fun he => hallowed (congrArg some he)
          apply h.take hsettled hf hp hd (hroom hd rfl) hv
          funext q
          simp only [outer, versionsBy_cons, Client.heldAfter, Function.update_apply]
          split
          · subst q
            omega
          · rfl
  | versionDispose vp =>
      cases vp with
      | none => cases hw; exact h
      | some vp =>
          simp only [World.exec, versionDispose] at hw
          cases hlookup : c.world.versions.lookup vp with
          | none => simp [hlookup] at hw
          | some version =>
              simp only [hlookup] at hw
              obtain ⟨manager, hcall, hw⟩ := Lib.bind_ok hw
              obtain ⟨w', hw', hw⟩ := Lib.bind_ok hw
              cases hw
              obtain ⟨hmanager, hversions⟩ := blobUnref_manager hw'
              obtain ⟨d, hd, hf, hv⟩ := transUnref_ok hcall
              have herase := versionsBy_eraseP hlookup
              have hcreator := congrFun herase version.creator
              rw [Function.update_self] at hcreator
              simp only [hmanager, hversions] at hsettled ⊢
              apply h.release hsettled hf _ hd hv ⟨rfl,
                rfl⟩ (htrans hd (by simp [releases, hlookup]))
              · funext q
                have hq := congrFun herase q
                simp only [outer, Client.heldAfter, Function.update_apply] at hq ⊢
                split
                · subst q
                  simp only [if_true] at hq
                  omega
                · simp_all
              · rw [outer]
                omega

theorem balanced_start : Balanced Client.start.world.manager (outer .start) := by
  refine ⟨settled_transInit, fun p => ?_, fun p c hp hc => ?_⟩
  · by_cases hp : p = transList
    · subst p
      rfl
    · have hnone : view transInit p = none := by
        simp only [view, transInit, if_neg hp]
        rfl
      have hentries : entriesNaming transInit p = 0 := rfl
      simp only [Client.start, World.start, outer, liveCount_none hnone, hentries]
      rfl
  · obtain ⟨t, ht, -⟩ := trans_of_view hc
    simp [Client.start, World.start, transInit, hp] at ht

def Keeps (c : Client) (call : Call) : Prop := c.Allowed call ∧ Accounted c.world call

theorem run_balanced {c : Client} {calls : List Call}
    (hrun : Lib.Steps Client.exec Keeps .start calls c) :
    Balanced c.world.manager (outer c) ∧ c.world.manager.fresh ≠ transList := by
  apply hrun.invariant (fun c => Balanced c.world.manager (outer c) ∧
    c.world.manager.fresh ≠ transList)
  · rintro c call after ⟨hbalanced, hfresh⟩ ⟨hallowed, hacc⟩ hstep
    refine ⟨exec_balanced hbalanced hfresh hallowed hacc hstep, ?_⟩
    obtain ⟨w, hw, hexec⟩ := Lib.bind_ok hstep
    cases hexec
    have hle := (exec_carries hbalanced.settled hw).fresh
    simp only [transList] at hfresh ⊢
    omega
  · exact ⟨balanced_start, by decide⟩

-- In every state of such a run the count of a live transaction is the number of
-- references to it, and exactly the transactions without references are freed.
theorem refcnt_eq_references {c : Client} {calls : List Call}
    (hrun : Lib.Steps Client.exec Keeps .start calls c) :
    (∀ p t, p ≠ transList → c.world.manager.trans p = some t → t.refcnt.toNat = references c p) ∧
    ∀ p, p ≠ transList → p < c.world.manager.fresh →
      (c.world.manager.trans p = none ↔ references c p = 0) := by
  obtain ⟨h, -⟩ := run_balanced hrun
  have hrefs (p : Ptr) : references c p = liveCount c.world.manager p := by
    rw [h.count p, references, outer]
    omega
  refine ⟨fun p t hp ht => ?_, fun p hp _ => ⟨fun hnone => ?_, fun hzero => ?_⟩⟩
  · rw [hrefs, liveCount_self hp (view_of_trans ht)]
    rfl
  · rw [hrefs]
    apply liveCount_none
    simp [view, hnone]
  · cases ht : c.world.manager.trans p with
    | none => rfl
    | some t =>
        have hpos := h.positive p (core t) hp (view_of_trans ht)
        rw [hrefs, liveCount_self hp (view_of_trans ht)] at hzero
        omega

-- Two transactions, one in the dependency set of the other.
theorem refcnt_eq_references_of_dependency :
    ∃ c t, Lib.Steps Client.exec Keeps .start [.create, .create,
      .addDependency (some 1) (some 2)] c ∧
      c.world.manager.trans 2 = some t ∧ t.refcnt.toNat = 2 ∧ t.refcnt.toNat = references c 2 := by
  have hcreate (c : Client) : Keeps c .create :=
    ⟨trivial, by simp, by rintro _ _ ⟨⟩, by rintro _ _ ⟨⟩⟩
  have hadd (c : Client) (t : Transaction) (ht : c.world.manager.trans 2 = some t)
      (hfull : t.refcnt.toNat + 1 < 2 ^ 32) : Keeps c (.addDependency (some 1) (some 2)) := by
    refine ⟨⟨by decide, by decide⟩, by simp, fun p u hp hu => ?_, by rintro _ _ ⟨⟩⟩
    have htwo : p = 2 := by
      simp only [takes] at hp
      split at hp
      · split at hp <;> cases hp
        rfl
      · cases hp
    subst p
    obtain rfl := Option.some.inj (ht.symm.trans hu)
    exact hfull
  obtain ⟨c, t, hrun, ht, hcount⟩ : ∃ c t, Lib.Steps Client.exec Keeps .start
      [.create, .create, .addDependency (some 1) (some 2)] c ∧
      c.world.manager.trans 2 = some t ∧ t.refcnt.toNat = 2 :=
    ⟨_, _, .cons (hcreate _) rfl <| .cons (hcreate _) rfl <|
      .cons (hadd _ _ rfl (by decide)) rfl <| .nil _, rfl, rfl⟩
  exact ⟨c, t, hrun, ht, hcount, (refcnt_eq_references hrun).1 2 t (by decide) ht⟩

-- The last reference to the first transaction goes away while its set names the
-- second one: the entry is freed and the reference that it held is not.
theorem refcnt_ne_references_of_freed_dependent :
    ∃ c t, Lib.Steps Client.exec Client.Allowed .start
        [.create, .create, .addDependency (some 1) (some 2), .unref (some 1)] c ∧
      c.world.manager.trans 2 = some t ∧ t.refcnt.toNat = 2 ∧ references c 2 = 1 :=
  ⟨_, _, .cons trivial rfl <| .cons trivial rfl <| .cons ⟨by decide, by decide⟩ rfl <|
    .cons (by decide : 0 < 1) rfl <| .nil _, rfl, rfl, rfl⟩

end CSE320.Xacto
