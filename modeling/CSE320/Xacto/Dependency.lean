import CSE320.Xacto.Transaction.Lemmas
import Mathlib.Algebra.Group.Nat.Defs
import Mathlib.Data.List.Induction
import Mathlib.Data.List.Nodup

namespace CSE320.Xacto

def addDependencies (m : Manager) (tp : Ptr) (ds : List Ptr) : Except Stop Manager :=
  ds.foldlM (fun m d => transAddDependency m (some tp) (some d)) m

def idOf (m : Manager) (p : Ptr) : Option (BitVec 32) := (m.trans p).map Transaction.id

-- The set that the calls should leave: every added transaction once, nothing
-- else, and one new reference for each member.
structure DependencySet (before after : Manager) (tp : Ptr) (ds : List Ptr) : Prop where
  entries : ∃ t, after.trans tp = some t ∧ t.depends.Nodup ∧ ∀ d, d ∈ t.depends ↔ d ∈ ds
  counted : ∀ d ∈ ds, ∀ t, before.trans d = some t →
    ∃ t', after.trans d = some t' ∧ t'.refcnt.toNat = t.refcnt.toNat + 1

-- The transactions of a call sequence, in the order in which they are first added.
def firsts (ds : List Ptr) : List Ptr :=
  ds.foldl (fun seen d => if d ∈ seen then seen else seen ++ [d]) []

-- An entry that the walk compares, so not the last one, has the id of d.
def Compared (ids : Ptr → Option (BitVec 32)) (entries : List Ptr) (d : Ptr) : Prop :=
  ∃ e ∈ entries.dropLast, ids e = ids d

instance (ids : Ptr → Option (BitVec 32)) (entries : List Ptr) (d : Ptr) :
    Decidable (Compared ids entries d) :=
  inferInstanceAs (Decidable (∃ e ∈ entries.dropLast, ids e = ids d))

-- The list after one call. An entry is appended unless the walk finds its id.
def appended (ids : Ptr → Option (BitVec 32)) (entries : List Ptr) (d : Ptr) : List Ptr :=
  if Compared ids entries d then entries else entries ++ [d]

theorem appendDependency_eq (m : Manager) (dtp : Ptr) (d : Transaction) (entries : List Ptr)
    (hd : m.trans dtp = some d) (hlive : ∀ e ∈ entries, (m.trans e).isSome) :
    appendDependency m dtp d.id entries =
      .ok (if Compared (idOf m) entries dtp then none else some (entries ++ [dtp])) := by
  induction entries with
  | nil => simp [appendDependency, Compared]
  | cons first rest ih =>
      cases rest with
      | nil => simp [appendDependency, Compared]
      | cons next rest =>
          obtain ⟨t, ht⟩ := Option.isSome_iff_exists.mp (hlive first (by simp))
          have hid : idOf m first = some t.id := by simp [idOf, ht]
          have hid' : idOf m dtp = some d.id := by simp [idOf, hd]
          have htail := ih (fun e he => hlive e (List.mem_cons_of_mem _ he))
          simp only [appendDependency, Manager.get_of_trans ht, htail]
          by_cases heq : t.id = d.id
          · have hc : Compared (idOf m) (first :: next :: rest) dtp :=
              ⟨first, by simp, by rw [hid, hid', heq]⟩
            simp [heq, hc]
          · have hc : Compared (idOf m) (first :: next :: rest) dtp ↔
                Compared (idOf m) (next :: rest) dtp := by
              simp only [Compared, List.dropLast_cons_cons, List.mem_cons,
                exists_eq_or_imp, hid, hid', Option.some.injEq, heq, false_or]
            by_cases hr : Compared (idOf m) (next :: rest) dtp <;> simp [heq, hc, hr]

-- The state after calls that left the given entries: only the set of tp and
-- the reference counts of its members have changed.
def After (m after : Manager) (tp : Ptr) (entries : List Ptr) : Prop :=
  ∀ p, after.trans p = (m.trans p).map fun t =>
    { t with depends := if p = tp then entries else t.depends,
             refcnt := t.refcnt + BitVec.ofNat 32 (entries.count p) }

theorem After.idOf_eq {m after : Manager} {tp : Ptr} {entries : List Ptr}
    (h : After m after tp entries) : idOf after = idOf m := by
  funext p
  simp only [idOf, h p, Option.map_map]
  rfl

theorem After.isSome_eq {m after : Manager} {tp : Ptr} {entries : List Ptr}
    (h : After m after tp entries) (p : Ptr) : (after.trans p).isSome = (m.trans p).isSome := by
  rw [h p, Option.isSome_map]

theorem After.origin {m after : Manager} {tp p : Ptr} {t : Transaction} {entries : List Ptr}
    (h : After m after tp entries) (ht : after.trans p = some t) :
    ∃ t₀, m.trans p = some t₀ ∧
      t = { t₀ with depends := if p = tp then entries else t₀.depends,
                    refcnt := t₀.refcnt + BitVec.ofNat 32 (entries.count p) } := by
  rw [h p] at ht
  obtain ⟨t₀, ht₀, he⟩ := Option.map_eq_some_iff.mp ht
  exact ⟨t₀, ht₀, he.symm⟩

-- Appending d takes one reference on d and leaves every other count alone.
theorem After.append {m after : Manager} {tp d : Ptr} {t u : Transaction} {entries : List Ptr}
    (h : After m after tp entries) (ht : after.trans tp = some t) (hu : after.trans d = some u)
    (hne : d ≠ tp) :
    After m ((after.set tp { t with depends := entries ++ [d] }).set d { u with refcnt :=
      u.refcnt + 1 })
      tp (entries ++ [d]) := by
  intro p
  by_cases hp : p = d
  · subst p
    obtain ⟨u₀, hu₀, rfl⟩ := h.origin hu
    rw [Manager.set_trans_self, hu₀]
    simp [hne, List.count_append, BitVec.add_assoc, BitVec.ofNat_add]
  · rw [Manager.set_trans_of_ne _ _ hp]
    have hcount : (entries ++ [d]).count p = entries.count p := by
      simp [List.count_append, Ne.symm hp]
    rw [hcount]
    by_cases hq : p = tp
    · subst p
      obtain ⟨t₀, ht₀, rfl⟩ := h.origin ht
      rw [Manager.set_trans_self, ht₀]
      simp
    · rw [Manager.set_trans_of_ne _ _ hq, h p]
      simp only [hq, if_false]

theorem transAddDependency_after {m after : Manager} {tp d : Ptr} {entries : List Ptr}
    (h : After m after tp entries) (htp : (m.trans tp).isSome) (hd : (m.trans d).isSome)
    (hlive : ∀ e ∈ entries, (m.trans e).isSome) :
    (Compared (idOf m) entries d ∧ transAddDependency after (some tp) (some d) = .ok after) ∨
    (¬Compared (idOf m) entries d ∧ d = tp ∧
      transAddDependency after (some tp) (some d) = .error .blocked) ∨
    (¬Compared (idOf m) entries d ∧ d ≠ tp ∧
      ∃ next, transAddDependency after (some tp) (some d) = .ok next ∧
        After m next tp (entries ++ [d])) := by
  obtain ⟨t, ht⟩ := Option.isSome_iff_exists.mp ((h.isSome_eq tp).trans htp)
  obtain ⟨u, hu⟩ := Option.isSome_iff_exists.mp ((h.isSome_eq d).trans hd)
  have hentries : t.depends = entries := by
    have hm := h tp
    obtain ⟨t', ht'⟩ := Option.isSome_iff_exists.mp htp
    rw [ht, ht', Option.map_some, Option.some.injEq] at hm
    simp [hm]
  have happend := appendDependency_eq after d u entries hu
    (fun e he => (h.isSome_eq e).trans (hlive e he))
  rw [h.idOf_eq] at happend
  simp only [transAddDependency, Manager.get_of_trans ht, Manager.get_of_trans hu, Lib.ok_bind,
    hentries, happend]
  by_cases hc : Compared (idOf m) entries d
  · left
    simp [hc]
  · right
    by_cases he : d = tp
    · left
      subst he
      simp [hc]
    · right
      refine ⟨hc, he, _, ?_, h.append ht hu he⟩
      simp only [hc, if_false, he, transRef]
      apply Manager.modify_of_trans
      rw [Manager.set_trans_of_ne _ _ he, hu]

-- A run that returns leaves the entries of the pure walk, and tp is not one of
-- them. It returns whenever tp itself is never added.
theorem addDependencies_after {m after : Manager} {tp : Ptr} {entries : List Ptr} (ds : List Ptr)
    (h : After m after tp entries) (htp : (m.trans tp).isSome) (hself : tp ∉ entries)
    (hlive : ∀ e ∈ entries, (m.trans e).isSome) (hds : ∀ d ∈ ds, (m.trans d).isSome) :
    (∀ final, addDependencies after tp ds = .ok final →
      After m final tp (ds.foldl (appended (idOf m)) entries) ∧
        tp ∉ ds.foldl (appended (idOf m)) entries) ∧
    (tp ∉ ds → ∃ final, addDependencies after tp ds = .ok final) := by
  induction ds generalizing after entries with
  | nil =>
      refine ⟨fun final hf => ?_, fun _ => ⟨after, rfl⟩⟩
      cases hf
      exact ⟨h, hself⟩
  | cons d ds ih =>
      have hd := hds d (by simp)
      have hrest : ∀ e ∈ ds, (m.trans e).isSome := fun e he => hds e (List.mem_cons_of_mem _ he)
      simp only [addDependencies, List.foldlM_cons, List.foldl_cons]
      rcases transAddDependency_after h htp hd hlive with ⟨hc, hok⟩ | ⟨hc, rfl, hstuck⟩ |
        ⟨hc, hne, next, hok, hnext⟩
      · simp only [hok, Lib.ok_bind, appended, hc, if_true]
        obtain ⟨hret, hex⟩ := ih h hself hlive hrest
        exact ⟨hret, fun hn => hex (fun hm => hn (List.mem_cons_of_mem _ hm))⟩
      · simp [hstuck]
      · simp only [hok, Lib.ok_bind, appended, hc, if_false]
        have hself' : tp ∉ entries ++ [d] := by simp [hself, Ne.symm hne]
        have hlive' : ∀ e ∈ entries ++ [d], (m.trans e).isSome := by
          intro e he
          rcases List.mem_append.mp he with he | he
          · exact hlive e he
          · exact List.mem_singleton.mp he ▸ hd
        obtain ⟨hret, hex⟩ := ih hnext hself' hlive' hrest
        exact ⟨hret, fun hn => hex (fun hm => hn (List.mem_cons_of_mem _ hm))⟩

-- The walk finds an id among the compared entries exactly for a transaction
-- that is in the set already.
def Distinguishes (ids : Ptr → Option (BitVec 32)) (ds : List Ptr) : Prop :=
  ∀ earlier d later, ds = earlier ++ d :: later →
    (Compared ids (firsts earlier) d ↔ d ∈ firsts earlier)

section Walk

variable {ids : Ptr → Option (BitVec 32)}

theorem appended_eq_or (ids : Ptr → Option (BitVec 32)) (entries : List Ptr) (d : Ptr) :
    appended ids entries d = entries ∨ appended ids entries d = entries ++ [d] := by
  unfold appended
  split
  · exact Or.inl rfl
  · exact Or.inr rfl

theorem foldl_appended_extends (ids : Ptr → Option (BitVec 32)) (entries ds : List Ptr) :
    entries <+: ds.foldl (appended ids) entries := by
  induction ds generalizing entries with
  | nil => exact List.prefix_rfl
  | cons d ds ih =>
      apply List.IsPrefix.trans _ (ih (appended ids entries d))
      rcases appended_eq_or ids entries d with he | he
      · exact ⟨[], by simp [he]⟩
      · exact ⟨[d], he.symm⟩

theorem compared_mono {entries more : List Ptr} {d : Ptr} (hp : entries <+: more)
    (hc : Compared ids entries d) : Compared ids more d := by
  obtain ⟨e, he, hid⟩ := hc
  obtain ⟨rest, rfl⟩ := hp
  refine ⟨e, ?_, hid⟩
  cases rest with
  | nil => simpa using he
  | cons r rest =>
      rw [List.dropLast_append_cons]
      exact List.mem_append_left _ (List.dropLast_subset entries he)

-- A transaction whose id the walk finds under another entry is never appended.
theorem not_mem_of_compared {entries : List Ptr} {d : Ptr} (ds : List Ptr)
    (hc : Compared ids entries d) (hd : d ∉ entries) : d ∉ ds.foldl (appended ids) entries := by
  induction ds generalizing entries with
  | nil => exact hd
  | cons next ds ih =>
      have hp : entries <+: appended ids entries next := foldl_appended_extends ids entries [next]
      apply ih (compared_mono hp hc)
      by_cases he : next = d
      · subst next
        simpa [appended, hc] using hd
      · rcases appended_eq_or ids entries next with hn | hn <;> rw [hn]
        · exact hd
        · simp [hd, Ne.symm he]

theorem firsts_append_singleton (ds : List Ptr) (d : Ptr) :
    firsts (ds ++ [d]) = if d ∈ firsts ds then firsts ds else firsts ds ++ [d] := by
  rw [firsts, List.foldl_append, List.foldl_cons, List.foldl_nil]
  rfl

theorem firsts_spec (ds : List Ptr) : (firsts ds).Nodup ∧ ∀ d, d ∈ firsts ds ↔ d ∈ ds := by
  induction ds using List.reverseRecOn with
  | nil => simp [firsts]
  | append_singleton ds d ih =>
      obtain ⟨hn, hm⟩ := ih
      rw [firsts_append_singleton]
      by_cases hd : d ∈ firsts ds
      · simp only [hd, if_true, List.mem_append, List.mem_singleton]
        refine ⟨hn, fun e => ⟨fun he => Or.inl ((hm e).mp he), ?_⟩⟩
        rintro (he | rfl)
        · exact (hm e).mpr he
        · exact hd
      · simp only [hd, if_false]
        refine ⟨?_, fun e => by simp [hm e]⟩
        simp only [List.nodup_append, hn, List.nodup_singleton, true_and, List.mem_singleton]
        rintro e he _ rfl rfl
        exact hd he

theorem foldl_appended_eq_firsts (ds : List Ptr) (h : Distinguishes ids ds) :
    ds.foldl (appended ids) [] = firsts ds := by
  induction ds using List.reverseRecOn with
  | nil => rfl
  | append_singleton ds d ih =>
      have hprefix : Distinguishes ids ds := by
        intro earlier e later he
        exact h earlier e (later ++ [d]) (by rw [he]; simp)
      have hd := h ds d [] rfl
      rw [List.foldl_append, List.foldl_cons, List.foldl_nil, ih hprefix, appended,
        firsts_append_singleton]
      simp only [hd]

-- The two ways to miss the condition are final: a repeated last entry stays in
-- the list twice, and a transaction taken for another one stays out.
theorem distinguishes_of_set (ds : List Ptr) (hn : (ds.foldl (appended ids) []).Nodup)
    (hm : ∀ d ∈ ds, d ∈ ds.foldl (appended ids) []) : Distinguishes ids ds := by
  suffices h : ∀ earlier later, ds = earlier ++ later → Distinguishes ids earlier from
    h ds [] (by simp)
  intro earlier
  induction earlier using List.reverseRecOn with
  | nil =>
      intro later _ first d rest he
      simp at he
  | append_singleton earlier d ih =>
      intro later hds first e rest he
      have hearlier := ih (d :: later) (by rw [hds]; simp)
      rcases List.eq_nil_or_concat rest with rfl | ⟨rest', last, rfl⟩
      · obtain ⟨rfl, hde⟩ := List.append_inj' he rfl
        obtain rfl := List.head_eq_of_cons_eq hde
        have hwalk := foldl_appended_eq_firsts earlier hearlier
        have hsplit : ds.foldl (appended ids) [] =
            later.foldl (appended ids) (appended ids (firsts earlier) d) := by
          rw [hds, List.foldl_append, List.foldl_append, List.foldl_cons, List.foldl_nil, hwalk]
        constructor
        · intro hc
          by_contra hnot
          apply not_mem_of_compared (d :: later) hc hnot
          have hmem := hm d (by rw [hds]; simp)
          rwa [hsplit] at hmem
        · intro hmem
          by_contra hc
          have hp := foldl_appended_extends ids (appended ids (firsts earlier) d) later
          rw [← hsplit, appended, if_neg hc] at hp
          have hnodup := hn.sublist hp.sublist
          simp only [List.nodup_append, List.mem_singleton] at hnodup
          exact hnodup.2.2 d hmem d rfl rfl
      · apply hearlier first e rest'
        rw [List.concat_eq_append, ← List.cons_append, ← List.append_assoc] at he
        exact (List.append_inj' he rfl).1

end Walk

-- Exactly when a sequence of calls builds a set: tp is not added to itself, no
-- reference count is full, and the walk recognises the members.
theorem addDependencies_set_iff (m : Manager) (tp : Ptr) (t : Transaction) (ds : List Ptr)
    (htp : m.trans tp = some t) (hempty : t.depends = [])
    (hlive : ∀ d ∈ ds, (m.trans d).isSome) :
    (∃ after, addDependencies m tp ds = .ok after ∧ DependencySet m after tp ds) ↔
      tp ∉ ds ∧ (∀ d ∈ ds, ∀ u, m.trans d = some u → u.refcnt.toNat + 1 < 2 ^ 32) ∧
        Distinguishes (idOf m) ds := by
  have hstart : After m m tp [] := by
    intro p
    by_cases hp : p = tp
    · subst p
      cases t
      simp_all
    · cases hm : m.trans p <;> simp [hp]
  obtain ⟨hret, hex⟩ := addDependencies_after ds hstart (by simp [htp]) (by simp) (by simp) hlive
  have hcount (entries : List Ptr) (after : Manager) (ha : After m after tp entries) (d : Ptr)
      (hmem : d ∈ entries) (hn : entries.Nodup) (u : Transaction) (hu : m.trans d = some u) :
      ∃ u', after.trans d = some u' ∧ u'.refcnt.toNat = (u.refcnt.toNat + 1) % 2 ^ 32 := by
    refine ⟨_, by rw [ha d, hu]; rfl, ?_⟩
    simp [hn.count, hmem, BitVec.toNat_add]
  constructor
  · rintro ⟨after, hok, hset⟩
    obtain ⟨ha, hself⟩ := hret after hok
    obtain ⟨t', ht', hn, hm⟩ := hset.entries
    have hdepends : t'.depends = ds.foldl (appended (idOf m)) [] := by
      rw [ha tp, htp] at ht'
      cases ht'
      simp
    rw [hdepends] at hn hm
    refine ⟨fun hmem => hself ((hm tp).mpr hmem), ?_,
      distinguishes_of_set ds hn (fun d => (hm d).mpr)⟩
    intro d hd u hu
    obtain ⟨u₁, hu₁, hc₁⟩ := hset.counted d hd u hu
    obtain ⟨u₂, hu₂, hc₂⟩ := hcount _ after ha d ((hm d).mpr hd) hn u hu
    obtain rfl := Option.some.inj (hu₁.symm.trans hu₂)
    rw [hc₁] at hc₂
    have := u₁.refcnt.isLt
    omega
  · rintro ⟨hself, hroom, hdist⟩
    obtain ⟨after, hok⟩ := hex hself
    obtain ⟨ha, -⟩ := hret after hok
    rw [foldl_appended_eq_firsts ds hdist] at ha
    obtain ⟨hn, hm⟩ := firsts_spec ds
    have htp' : after.trans tp = some { t with
        depends := firsts ds
        refcnt := t.refcnt + BitVec.ofNat 32 ((firsts ds).count tp) } := by
      rw [ha tp, htp]
      simp
    refine ⟨after, hok, ⟨⟨_, htp', hn, hm⟩, ?_⟩⟩
    intro d hd u hu
    obtain ⟨u', hu', hc⟩ := hcount _ after ha d ((hm d).mpr hd) hn u hu
    exact ⟨u', hu', by have := hroom d hd u hu; omega⟩

def transCreates : Nat → Manager → Except Stop Manager
  | 0, m => .ok m
  | n + 1, m => do
    let (_, m) ← transCreate m
    transCreates n m

-- Two fresh dependencies of transaction 1, the first of them added again at
-- the end: the walk reaches it before the last entry.
theorem addDependencies_set_of_earlier_repeat :
    ∃ m, transCreates 3 transInit = .ok m ∧
      ∃ after, addDependencies m 1 [2, 3, 2] = .ok after ∧ DependencySet m after 1 [2, 3, 2] := by
  refine ⟨_, rfl, (addDependencies_set_iff _ 1 _ [2, 3, 2] rfl rfl (by decide)).mpr
    ⟨by decide, ?_, ?_⟩⟩
  · intro d hd u hu
    have hd' : d = 2 ∨ d = 3 := by simpa [or_comm] using hd
    rcases hd' with rfl | rfl <;> cases hu <;> decide
  · intro earlier d later he
    match earlier, he with
    | [], he => cases he; decide
    | [_], he => cases he; decide
    | [_, _], he => cases he; decide
    | _ :: _ :: _ :: _, he => simp at he

-- The same transaction added twice in a row is in the list twice.
theorem addDependencies_not_set_of_last_repeat :
    ∃ m, transCreates 2 transInit = .ok m ∧
      ¬∃ after, addDependencies m 1 [2, 2] = .ok after ∧ DependencySet m after 1 [2, 2] := by
  refine ⟨_, rfl, ?_⟩
  rintro ⟨after, hok, hset⟩
  obtain ⟨t, ht, hn, -⟩ := hset.entries
  cases hok
  cases ht
  revert hn
  decide

end CSE320.Xacto
