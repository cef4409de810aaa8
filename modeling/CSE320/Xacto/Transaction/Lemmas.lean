import CSE320.Lib.Run
import CSE320.Xacto.Transaction

namespace CSE320.Xacto

namespace Manager

@[simp] theorem set_trans_self (m : Manager) (p : Ptr) (t : Transaction) :
    (m.set p t).trans p = some t := by
  simp [set]

theorem set_trans_of_ne (m : Manager) (t : Transaction) {p q : Ptr} (h : q ≠ p) :
    (m.set p t).trans q = m.trans q := by
  simp [set, h]

@[simp] theorem free_trans_self (m : Manager) (p : Ptr) : (m.free p).trans p = none := by
  simp [free]

theorem free_trans_of_ne (m : Manager) {p q : Ptr} (h : q ≠ p) :
    (m.free p).trans q = m.trans q := by
  simp [free, h]

@[simp] theorem set_fresh (m : Manager) (p : Ptr) (t : Transaction) :
    (m.set p t).fresh = m.fresh := rfl

@[simp] theorem free_fresh (m : Manager) (p : Ptr) : (m.free p).fresh = m.fresh := rfl

theorem get_ok {m : Manager} {p : Ptr} {t : Transaction} :
    m.get p = .ok t ↔ m.trans p = some t := by
  unfold get
  split <;> simp_all

theorem get_of_trans {m : Manager} {p : Ptr} {t : Transaction} (h : m.trans p = some t) :
    m.get p = .ok t := get_ok.mpr h

theorem modify_of_trans {m : Manager} {p : Ptr} {t : Transaction} (f : Transaction → Transaction)
    (h : m.trans p = some t) : m.modify p f = .ok (m.set p (f t)) := by
  rw [modify, get_of_trans h]
  rfl

theorem modify_ok {m after : Manager} {p : Ptr} {f : Transaction → Transaction}
    (h : m.modify p f = .ok after) :
    ∃ t, m.trans p = some t ∧ after = m.set p (f t) := by
  obtain ⟨t, ht, h⟩ := Lib.bind_ok h
  exact ⟨t, get_ok.mp ht, (Except.ok.inj h).symm⟩

end Manager

end CSE320.Xacto
